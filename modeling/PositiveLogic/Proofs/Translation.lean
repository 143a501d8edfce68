import PositiveLogic.Proofs.RoundTrip

/-!
# Writing in another dialect

A formula need not come from a text of the dialect it is written in. Its operators, groups and
places of literals are spelled anew, so only its leaves can stand in the way: a literal is plain in
a dialect if it is no call, its modifiers are modifiers there, and its text does not start with one
more of them. Whatever else the text holds is quoted or escaped where the dialect needs it.

* `Formula.read_write_of_scan`: a formula whose literals are read back one by one is read back from
  what is written of it, if its printed groups stay within the limit. `Formula.PlainIn.read_write`
  says so of plain literals.
* `Formula.read_write_of_plain`: the height of the formula is always limit enough.
-/

namespace PositiveLogic

instance (d : Dialect) (a : Atom) : Decidable (d.IsPlain a) :=
  decidable_of_iff
    (a.call = none ∧ a.modifiers.all d.isModifier = true ∧
      (a.modifiers ≠ [] → d.startsWithModifier a.value.toList = false))
    (by
      rw [List.all_eq_true]
      exact ⟨fun ⟨h₁, h₂, h₃⟩ => ⟨h₁, h₂, h₃⟩, fun ⟨h₁, h₂, h₃⟩ => ⟨h₁, h₂, h₃⟩⟩)

/-- A leaf is a literal that is plain in a dialect. -/
def Token.PlainIn (d : Dialect) : Leaf → Prop
  | .literal l => d.IsPlain l.atom
  | _ => False

instance (d : Dialect) (t : Leaf) : Decidable (t.PlainIn d) :=
  match t with
  | .literal l => inferInstanceAs (Decidable (d.IsPlain l.atom))
  | .and | .or | .opening | .closing => isFalse id

namespace Formula

variable {d : Dialect} {e : Formula Leaf}

/-- All leaves of a formula are literals that are plain in a dialect. -/
def PlainIn (d : Dialect) (e : Formula Leaf) : Prop := ∀ t ∈ e.leaves, t.PlainIn d

instance (d : Dialect) (e : Formula Leaf) : Decidable (e.PlainIn d) :=
  inferInstanceAs (Decidable (∀ t ∈ e.leaves, t.PlainIn d))

theorem PlainIn.exists_map_literal (h : e.PlainIn d) :
    ∃ f : Formula Atom, f.map Token.literal = e.map Token.written ∧
      ∀ a ∈ f.leaves, d.IsPlain a := by
  induction e with
  | leaf t =>
    have ht : t.PlainIn d := h t (List.mem_singleton_self t)
    cases t with
    | literal l => exact ⟨leaf l.atom, rfl, List.forall_mem_singleton.2 ht⟩
    | _ => exact ht.elim
  | and l r ihl ihr =>
    obtain ⟨f, hf, hfplain⟩ := ihl fun t ht => h t (List.mem_append_left _ ht)
    obtain ⟨g, hg, hgplain⟩ := ihr fun t ht => h t (List.mem_append_right _ ht)
    refine ⟨.and f g, ?_, List.forall_mem_append.2 ⟨hfplain, hgplain⟩⟩
    rw [map, hf, hg, map]
  | or l r ihl ihr =>
    obtain ⟨f, hf, hfplain⟩ := ihl fun t ht => h t (List.mem_append_left _ ht)
    obtain ⟨g, hg, hgplain⟩ := ihr fun t ht => h t (List.mem_append_right _ ht)
    refine ⟨.or f g, ?_, List.forall_mem_append.2 ⟨hfplain, hgplain⟩⟩
    rw [map, hf, hg, map]

/-- **A formula is read back from what is written of it**, if each of its literals is and its printed
groups nest no deeper than allowed. -/
theorem read_write_of_scan (hd : d.WellFormed) {f : Formula Atom}
    (hf : f.map Token.literal = e.map Token.written)
    (hleaves : ∀ a ∈ f.leaves, Token.scan d .empty (d.spellAtom a) = .ok [.literal a])
    {limits : Limits} (hle : Token.nesting e.toTokens ≤ limits.maxDepth) (next : Nat) :
    ∃ e' n, read d limits next (e.write d) = .ok (e', n) ∧
      e'.map Token.written = e.map Token.written := by
  have hreads := readsAs_spellAt hd hleaves .top
  have hwrite : (e.write d).toList = f.spellAt d .top := by
    unfold write
    rw [String.toList_ofList, ← hf, spell_map_literal]
  rw [exists_read_iff, hwrite, ← hf]
  refine ⟨_, hreads.scan_eq, f.derives_toTokensAt .top, ?_⟩
  calc Token.nesting f.toTokens
      = Token.nesting (f.map Token.literal).toTokens := (nesting_toTokens_map _ f).symm
    _ = Token.nesting e.toTokens := by rw [hf, nesting_toTokens_map]
    _ ≤ limits.maxDepth := hle

/-- A formula of plain literals is read back from what is written of it, if its printed groups nest
no deeper than allowed. -/
theorem PlainIn.read_write (he : e.PlainIn d) (hd : d.WellFormed) {limits : Limits}
    (hle : Token.nesting e.toTokens ≤ limits.maxDepth) (next : Nat) :
    ∃ e' n, read d limits next (e.write d) = .ok (e', n) ∧
      e'.map Token.written = e.map Token.written := by
  obtain ⟨f, hf, hplain⟩ := he.exists_map_literal
  exact read_write_of_scan hd hf (fun a ha => Token.scan_spellAtom_plain hd (hplain a ha)) hle next

/-- **Any formula of plain literals can be written in any dialect** whose signs can be told apart:
with groups allowed as deep as the formula is tall, what is written is read back as the same
formula. The texts of the literals are free, and so is where the formula comes from. -/
theorem read_write_of_plain (hd : d.WellFormed) (he : e.PlainIn d) {limits : Limits}
    (hdepth : e.depth ≤ limits.maxDepth) (next : Nat) :
    ∃ e' n, read d limits next (e.write d) = .ok (e', n) ∧
      e'.map Token.written = e.map Token.written :=
  he.read_write hd (e.nesting_toTokens_lt_depth.le.trans hdepth) next

/-- One operator starts like the other, blanks do not end literals, and one literal stands in two
places; the texts hold an operator, signs of the dialect, or nothing but a blank. -/
theorem read_write_of_plain_matlab : ∃ e : Formula Leaf, ∃ d : Dialect,
    d = { andOp := "&", orOp := "&|", modifiers := CharSet.ofList ['!'], splitOnBlank := false } ∧
    e = and (leaf (.literal ⟨5, ['!'], " a&|b ", none⟩))
      (or (leaf (.literal ⟨8, [], "!it's (\\)", none⟩))
        (and (leaf (.literal ⟨5, ['!'], " a&|b ", none⟩)) (leaf (.literal ⟨0, [], " ", none⟩)))) ∧
    d.WellFormed ∧ e.PlainIn d ∧ e.depth ≤ 4 ∧
    ∃ e' n, read d ⟨4, 0⟩ 1 (e.write d) = .ok (e', n) ∧
      e'.map Token.written = e.map Token.written :=
  ⟨_, _, rfl, rfl, by decide, by decide, by decide,
    read_write_of_plain (by decide) (by decide) (by decide) 1⟩

end Formula

end PositiveLogic
