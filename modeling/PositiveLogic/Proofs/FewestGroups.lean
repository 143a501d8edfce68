import PositiveLogic.Proofs.Translation

/-!
# The fewest groups

A formula is printed with the fewest groups that any list of tokens for it has, and with the
shallowest.

* `Formula.printed e`: the printed tokens of a formula whose leaves are tokens.
* `Formula.derives_printed`: the tree of the printed tokens is the formula itself, so they are among
  the lists that the statement compares.
* `Formula.printed_sublist`: every list for the same tree is the printed one with more groups around
  its phrases. So no group is printed that the grammar does not ask for.
* `Formula.printed_groups_minimal`: the number of printed groups and their nesting, and what this
  means for the limit on nesting.
-/

namespace PositiveLogic

namespace Token

variable {α : Type}

/-- Whether a token opens a group. -/
def opens : Token α → Bool
  | opening => true
  | _ => false

/-- The number of groups that are opened in a list of tokens. -/
def groups (ts : List (Token α)) : Nat := ts.countP opens

/-- A token over tokens as a token: each literal is the token that it holds. -/
def join : Token (Token α) → Token α
  | literal t => t
  | and => and
  | or => or
  | opening => opening
  | closing => closing

@[simp] theorem join_map_literal (t : Token α) : (t.map literal).join = t := by
  cases t <;> rfl

/-- Where a literal holds an opening token, one more group is opened behind `join`. -/
theorem groups_le_groups_join (ts : List (Token (Token α))) : groups ts ≤ groups (ts.map join) := by
  unfold groups
  rw [List.countP_map]
  refine List.countP_mono_left fun t _ ht => ?_
  cases t with
  | opening => rfl
  | _ => cases ht

end Token

namespace Formula

variable {α : Type}

/-- The printed tokens of a formula whose leaves are tokens. -/
def printed (e : Formula (Token α)) : List (Token α) :=
  e.toTokens.map Token.join

theorem printed_map_literal (f : Formula α) : (f.map Token.literal).printed = f.toTokens := by
  unfold printed toTokens
  rw [toTokensAt_map, List.map_map]
  simp [Function.comp_def]

/-- **The tree of the printed tokens is the formula itself**, if it is the tree of any list. -/
theorem derives_printed {p : Phrase} {ts : List (Token α)} {e : Formula (Token α)}
    (h : Derives p ts e) : Derives .expr e.printed e := by
  obtain ⟨f, rfl⟩ := h.exists_map_literal
  rw [printed_map_literal]
  exact f.derives_toTokensAt .top

theorem nesting_printed {p : Phrase} {ts : List (Token α)} {e : Formula (Token α)}
    (h : Derives p ts e) : Token.nesting e.printed = Token.nesting e.toTokens := by
  obtain ⟨f, rfl⟩ := h.exists_map_literal
  rw [printed_map_literal, nesting_toTokens_map]

theorem map_join_group (needed : Bool) (ts : List (Token (Token α))) :
    (group needed ts).map Token.join = group needed (ts.map Token.join) := by
  cases needed with
  | false => rfl
  | true => simp [group, Token.join]

/-- A group around a list is printed, if at all, where another list has one too. -/
theorem group_sublist {needed : Bool} {ts us : List (Token α)} (h : ts.Sublist us) :
    (group needed ts).Sublist (.opening :: us ++ [.closing]) := by
  cases needed with
  | true => exact (h.cons_cons .opening).append (List.Sublist.refl [.closing])
  | false => exact (h.trans (List.sublist_append_left us [.closing])).cons .opening

/-- **Every phrase for a tree is the printed one with more groups**, at a place for such a phrase. -/
theorem printed_sublist {p : Phrase} {ts : List (Token α)} {e : Formula (Token α)}
    (h : Derives p ts e) (place : Place) (hp : p.rank ≤ place.phrase.rank) :
    ((e.toTokensAt place).map Token.join).Sublist ts := by
  induction h generalizing place with
  | literal a => exact List.Sublist.refl _
  | @group ts e h ih =>
    obtain ⟨needed, hneeded⟩ := e.toTokensAt_eq_group place
    rw [hneeded, map_join_group]
    exact group_sublist (ih .top (Nat.le_refl _))
  | factor _ ih => exact ih place (Nat.zero_le _)
  | @and ts us l r _ _ ihl ihr =>
    have hl := ihl .andLeft (Nat.le_refl _)
    have hr := ihr .andRight (Nat.le_refl _)
    rw [toTokensAt, Place.groupsAnd_eq_false hp, group, if_neg Bool.false_ne_true, List.map_append,
      List.map_cons]
    exact hl.append (hr.cons_cons .and)
  | term _ ih => exact ih place (Nat.le_of_lt hp)
  | @or ts us l r _ _ ihl ihr =>
    have hl := ihl .orLeft (Nat.le_refl _)
    have hr := ihr .orRight (Nat.le_refl _)
    rw [toTokensAt, Place.groupsOr_eq_false hp, group, if_neg Bool.false_ne_true, List.map_append,
      List.map_cons]
    exact hl.append (hr.cons_cons .or)

theorem groups_toTokens_le {ts : List (Token α)} {e : Formula (Token α)} (h : Derives .expr ts e) :
    Token.groups e.toTokens ≤ Token.groups ts :=
  (Token.groups_le_groups_join e.toTokens).trans
    (printed_sublist h .top (Nat.le_refl _)).countP_le

/-- **Printed groups are minimal.** Of a list that is accepted, only groups are left out when its
formula is printed: what is printed has no more groups than the list and none deeper, and it is
accepted with the same formula under every limit that the list is accepted under. So is the text of
it, in every dialect whose signs can be told apart, if the literals are read back one by one. -/
theorem printed_groups_minimal :
    (∀ (limits : Limits) (ts : List (Token α)) (e : Formula (Token α)),
      ofTokens limits.maxDepth ts = .ok e →
        Token.groups e.toTokens ≤ Token.groups ts ∧
        Token.nesting e.toTokens ≤ Token.nesting ts ∧
        e.printed.Sublist ts ∧ ofTokens limits.maxDepth e.printed = .ok e) ∧
    ∀ (d : Dialect) (limits : Limits) (ts : List Leaf) (e : Formula Leaf) (next : Nat),
      d.WellFormed → ofTokens limits.maxDepth ts = .ok e →
      (∀ l, .literal l ∈ e.leaves →
        Token.scan d .empty (d.spellAtom l.atom) = .ok [.literal l.atom]) →
      ∃ e' n, read d limits next (e.write d) = .ok (e', n) ∧
        e'.map Token.written = e.map Token.written := by
  refine ⟨fun limits ts e h => ?_, fun d limits ts e next hd h hleaves => ?_⟩
  · obtain ⟨hderives, hle⟩ := derives_of_ofTokens h
    have hnesting := nesting_toTokensAt_le hderives .top (Nat.le_refl _)
    refine ⟨groups_toTokens_le hderives, hnesting,
      printed_sublist hderives .top (Nat.le_refl _), ?_⟩
    refine ofTokens_of_derives (derives_printed hderives) ?_
    rw [nesting_printed hderives]
    exact hnesting.trans hle
  · obtain ⟨hderives, hle⟩ := derives_of_ofTokens h
    have hnesting := nesting_toTokensAt_le hderives .top (Nat.le_refl _)
    obtain ⟨f, hf⟩ := (hderives.map Literal.atom).exists_map_literal
    exact read_write_of_scan hd hf ((forall_literal_iff hf).1 hleaves) (hnesting.trans hle) next

/-- One of four groups is printed. -/
theorem printed_groups_minimal_nested : ∃ (a b c : Literal) (ts : List Leaf) (e : Formula Leaf),
    ts = [.opening, .opening, .literal a, .closing, .and, .opening, .opening, .literal b, .or,
      .literal c, .closing, .closing, .closing] ∧
    ofTokens 3 ts = .ok e ∧
    e.printed = [.literal a, .and, .opening, .literal b, .or, .literal c, .closing] ∧
    Token.groups e.toTokens ≤ Token.groups ts ∧ Token.nesting e.toTokens ≤ Token.nesting ts ∧
    e.printed.Sublist ts ∧ ofTokens 3 e.printed = .ok e ∧
    e.write {} = "a && (b || '')" ∧
    ∃ e' n, read {} ⟨3, 0⟩ 1 (e.write {}) = .ok (e', n) ∧
      e'.map Token.written = e.map Token.written := by
  let a : Literal := ⟨4, [], "a", none⟩
  let b : Literal := ⟨2, [], "b", none⟩
  let c : Literal := ⟨2, [], "", none⟩
  let ts : List Leaf := [.opening, .opening, .literal a, .closing, .and, .opening, .opening,
    .literal b, .or, .literal c, .closing, .closing, .closing]
  let e : Formula Leaf := and (leaf (.literal a)) (or (leaf (.literal b)) (leaf (.literal c)))
  have hd : ({} : Dialect).WellFormed := by decide
  have hts : ofTokens 3 ts = .ok e := rfl
  have hplain : e.PlainIn {} := by decide
  obtain ⟨hlist, htext⟩ := printed_groups_minimal (α := Literal)
  obtain ⟨hgroups, hnesting, hsublist, hagain⟩ := hlist ⟨3, 0⟩ ts e hts
  refine ⟨a, b, c, ts, e, rfl, hts, rfl, hgroups, hnesting, hsublist, hagain, by decide, ?_⟩
  exact htext {} ⟨3, 0⟩ ts e 1 hd hts fun l hl => Token.scan_spellAtom_plain hd (hplain _ hl)

end Formula

end PositiveLogic
