import PositiveLogic.Proofs.FirstLiteral
import PositiveLogic.Proofs.Parsing
import PositiveLogic.Proofs.Printing
import PositiveLogic.Reading

/-!
# Reading back a formula

`Formula.read_write_iff`: a formula that was read is read back from its printed text exactly if the
head of every call in it is plain. Other literals are read back whatever their text is, but the
text of a call is printed as it stands, and a sign that was escaped in its head counts when it is
read again.

For one direction every literal is read back by itself, and so is the whole text
(`Formula.readsAs_spellAt`). For the other one the calls are found plain from left to right:
`Token.Gives` says what is known of the text from one operand on, and as long as all literals so
far are read back, it is known of the next operand too.
-/

namespace PositiveLogic

namespace Token

variable {d : Dialect} {cs ls rs : List Char} {lts : List (Token Atom)} {as bs : List Atom}
  {a : Atom}

/-! ## What a text gives -/

/-- In front of some suffix a text is read as operands and operators that alternate, and the first
literals of them are `as`. -/
def Gives (d : Dialect) (cs : List Char) (as : List Atom) : Prop :=
  ∃ suffix ts more, scan d .empty (cs ++ suffix) = .ok ts ∧ Alternates true ts ∧
    ts.filter isLiteral = as.map literal ++ more

theorem Gives.of_enclose (hd : d.WellFormed) {needed : Bool}
    (h : Gives d (d.enclose needed cs) as) : Gives d cs as := by
  cases needed with
  | false => exact h
  | true =>
    obtain ⟨suffix, ts, more, hscan, halt, hfilter⟩ := h
    have hassoc : d.enclose true cs ++ suffix = d.opening :: (cs ++ d.closing :: suffix) := by
      simp [Dialect.enclose]
    rw [hassoc, scan_empty_opening hd, thenScan_eq_ok_iff] at hscan
    obtain ⟨us, hus, rfl⟩ := hscan
    exact ⟨d.closing :: suffix, us, more, hus, halt.2, hfilter⟩

theorem Gives.left {op : Token Atom} (h : Gives d (d.joinWith op ls rs) (as ++ bs)) :
    Gives d ls as := by
  obtain ⟨suffix, ts, more, hscan, halt, hfilter⟩ := h
  refine ⟨' ' :: d.spelling op ++ ' ' :: rs ++ suffix, ts, bs.map literal ++ more, ?_, halt, ?_⟩
  · rwa [← List.append_assoc]
  · rwa [List.map_append, List.append_assoc] at hfilter

/-- If the left operand is read back, the right operand gives the literals behind it. -/
theorem Gives.right {op : Token Atom} (hop : op.isOperator) (hd : d.Separable)
    {p : Formula.Phrase} {l : Formula Atom} (hl : ReadsAs d ls lts)
    (hlts : Formula.Derives p lts (l.map literal))
    (h : Gives d (d.joinWith op ls rs) (l.leaves ++ bs)) : Gives d rs bs := by
  obtain ⟨suffix, ts, more, hscan, halt, hfilter⟩ := h
  have hassoc : d.joinWith op ls rs ++ suffix = d.joinWith op ls (rs ++ suffix) := by
    simp [Dialect.joinWith]
  rw [hassoc, hl.scan_joinWith hd hop, thenScan_eq_ok_iff] at hscan
  obtain ⟨us, hus, rfl⟩ := hscan
  have hliterals : lts.filter isLiteral = l.leaves.map literal := by
    rw [← hlts.leaves_eq, Formula.leaves_map]
  rw [List.append_assoc, List.filter_append, hliterals, List.map_append, List.append_assoc,
    List.append_cancel_left_eq] at hfilter
  rw [List.append_assoc, hlts.alternates_append] at halt
  refine ⟨suffix, us, more, hus, ?_, ?_⟩
  · cases op with
    | and => exact halt.2
    | or => exact halt.2
    | _ => cases hop
  · cases op with
    | and => exact hfilter
    | or => exact hfilter
    | _ => cases hop

/-- A literal that is given by what is written of it is no call, or one with a plain head. -/
theorem Gives.plainCall (hd : d.WellFormed) (ha : Scannable d a) (h : Gives d (d.spellAtom a) [a]) :
    d.PlainCall a := by
  obtain ⟨suffix, ts, more, hscan, halt, hfilter⟩ := h
  cases ha with
  | plain hplain => exact Dialect.plainCall_of_call_eq_none hplain.call
  | call _ hread =>
    rw [Dialect.plainCall_call]
    exact plainHead_of_scan hd hread hscan (leading?_of_alternates halt hfilter)

end Token

namespace Formula

variable {d : Dialect} {e : Formula Atom}

theorem readsAs_of_plainCall (hd : d.WellFormed) (he : ∀ a ∈ e.leaves, Token.Scannable d a)
    (h : ∀ a ∈ e.leaves, d.PlainCall a) (place : Place) :
    Token.ReadsAs d (e.spellAt d place) (e.toTokensAt place) :=
  readsAs_spellAt hd (fun a ha => (he a ha).scan_spellAtom hd (h a ha)) place

section Operands

variable {l r : Formula Atom} {op : Token Atom} {lplace rplace : Place} {needed : Bool}

/-- Two operands: if the left one has plain calls only, it is read back, and the right one is
reached. -/
theorem plainCall_joinWith (hd : d.WellFormed) (hop : op.isOperator)
    (he : ∀ a ∈ l.leaves ++ r.leaves, Token.Scannable d a)
    (h : Token.Gives d (d.enclose needed
      (d.joinWith op (l.spellAt d lplace) (r.spellAt d rplace))) (l.leaves ++ r.leaves))
    (hl : Token.Gives d (l.spellAt d lplace) l.leaves → ∀ a ∈ l.leaves, d.PlainCall a)
    (hr : Token.Gives d (r.spellAt d rplace) r.leaves → ∀ a ∈ r.leaves, d.PlainCall a) :
    ∀ a ∈ l.leaves ++ r.leaves, d.PlainCall a := by
  have h := h.of_enclose hd
  have hl := hl h.left
  have hreads := readsAs_of_plainCall hd (fun a ha => he a (List.mem_append_left _ ha)) hl lplace
  have hr := hr (h.right hop hd.separable hreads (l.derives_toTokensAt lplace))
  exact List.forall_mem_append.2 ⟨hl, hr⟩

end Operands

/-- **A formula whose printed text gives its literals has plain calls only.** -/
theorem plainCall_of_gives (hd : d.WellFormed) (he : ∀ a ∈ e.leaves, Token.Scannable d a)
    (place : Place) (h : Token.Gives d (e.spellAt d place) e.leaves) :
    ∀ a ∈ e.leaves, d.PlainCall a := by
  induction e generalizing place with
  | leaf a =>
    rw [spellAt_leaf] at h
    rw [leaves, List.forall_mem_singleton] at he ⊢
    exact h.plainCall hd he
  | and l r ihl ihr =>
    rw [spellAt_and] at h
    exact plainCall_joinWith hd rfl he h (ihl (fun a ha => he a (List.mem_append_left _ ha)) _)
      (ihr (fun a ha => he a (List.mem_append_right _ ha)) _)
  | or l r ihl ihr =>
    rw [spellAt_or] at h
    exact plainCall_joinWith hd rfl he h (ihl (fun a ha => he a (List.mem_append_left _ ha)) _)
      (ihr (fun a ha => he a (List.mem_append_right _ ha)) _)

/-! ## Readings of a text -/

/-- A text is scanned, its literals are numbered, and the tokens are parsed. -/
theorem read_eq_ok_iff {limits : Limits} {next n : Nat} {s : String} {f : Formula Leaf} :
    read d limits next s = .ok (f, n) ↔ ∃ ts, Token.scan d .empty s.toList = .ok ts ∧
      ofTokens limits.maxDepth (Token.stampAll next ts).1 = .ok f ∧
        n = (Token.stampAll next ts).2 := by
  cases hscan : Token.scan d .empty s.toList with
  | error fault => simp [read, Token.read, Token.ofText, hscan, bind, Except.bind]
  | ok ts =>
    cases hparse : ofTokens limits.maxDepth (Token.stampAll next ts).1 with
    | error fault =>
      simp [read, Token.read, Token.ofText, hscan, readTokens, hparse, bind, Except.bind,
        Except.mapError]
    | ok g =>
      simp [read, Token.read, Token.ofText, hscan, readTokens, hparse, bind, Except.bind,
        Except.mapError, pure, Except.pure, eq_comm]

/-- A formula is read from a text exactly if the text is scanned as an expression for it. The
numbers of its literals are left out here. -/
theorem exists_read_iff {limits : Limits} {next : Nat} {s : String} {e : Formula (Token Atom)} :
    (∃ f n, read d limits next s = .ok (f, n) ∧ f.map Token.written = e) ↔
      ∃ ts, Token.scan d .empty s.toList = .ok ts ∧ Derives .expr ts e ∧
        Token.nesting ts ≤ limits.maxDepth := by
  have hwritten := Token.map_written_stampAll next
  have hnesting : ∀ ts, Token.nesting (Token.stampAll next ts).1 = Token.nesting ts := by
    intro ts
    have h := Token.nestingFrom_map Literal.atom 0 (Token.stampAll next ts).1
    exact h.symm.trans (congrArg Token.nesting (hwritten ts))
  constructor
  · rintro ⟨f, n, hread, rfl⟩
    obtain ⟨ts, hscan, hparse, -⟩ := read_eq_ok_iff.1 hread
    obtain ⟨hderives, hle⟩ := derives_of_ofTokens hparse
    have hderives := hderives.map Literal.atom
    refine ⟨ts, hscan, ?_, (hnesting ts).symm.trans_le hle⟩
    rwa [← hwritten ts]
  · rintro ⟨ts, hscan, hderives, hle⟩
    obtain ⟨f, hf, rfl⟩ := hderives.exists_of_map Literal.atom (hwritten ts)
    exact ⟨f, _, read_eq_ok_iff.2 ⟨ts, hscan, ofTokens_of_derives hf ((hnesting ts).trans_le hle),
      rfl⟩, rfl⟩

theorem forall_literal_iff {e : Formula Leaf} {f : Formula Atom}
    (h : f.map Token.literal = e.map Token.written) {P : Atom → Prop} :
    (∀ l, .literal l ∈ e.leaves → P l.atom) ↔ ∀ a ∈ f.leaves, P a := by
  have hleaves : f.leaves.map Token.literal = e.leaves.map Token.written := by
    rw [← leaves_map, h, leaves_map]
  constructor
  · intro he a ha
    have hmem := List.mem_map_of_mem (f := Token.literal) ha
    rw [hleaves] at hmem
    obtain ⟨t, ht, hwritten⟩ := List.mem_map.1 hmem
    cases t with
    | literal l =>
      cases hwritten
      exact he l ht
    | _ => cases hwritten
  · intro hf l hl
    have hmem := List.mem_map_of_mem (f := Token.written) hl
    rw [← hleaves] at hmem
    obtain ⟨a, ha, hatom⟩ := List.mem_map.1 hmem
    cases hatom
    exact hf _ ha

/-- **A formula that was read is read back from its printed text exactly if every call in it has a
plain head.** The numbers of its literals are new, and everything else is the same: the operators,
and of each literal its modifiers, its text and, for a call, its name and parameters. -/
theorem read_write_iff (hd : d.WellFormed) {limits : Limits} {next next' : Nat} {s : String}
    {e : Formula Leaf} (h : read d limits next s = .ok (e, next')) (fresh : Nat) :
    (∃ e' n, read d limits fresh (e.write d) = .ok (e', n) ∧
      e'.map Token.written = e.map Token.written) ↔
    ∀ l, .literal l ∈ e.leaves → d.PlainCall l.atom := by
  obtain ⟨ts, hscan, hderives, hle⟩ := exists_read_iff.1 ⟨e, next', h, rfl⟩
  obtain ⟨f, hf⟩ := hderives.exists_map_literal
  have hleaves : f.leaves.map Token.literal = ts.filter Token.isLiteral := by
    rw [← leaves_map, hf, hderives.leaves_eq]
  have hscannable : ∀ a ∈ f.leaves, Token.Scannable d a := by
    intro a ha
    have hmem := List.mem_map_of_mem (f := Token.literal) ha
    rw [hleaves] at hmem
    exact Token.scannable_of_scan hscan (List.mem_of_mem_filter hmem)
  have hwrite : (e.write d).toList = f.spellAt d .top := by
    unfold write
    rw [String.toList_ofList, ← hf, spell_map_literal]
  rw [forall_literal_iff hf, exists_read_iff, hwrite, ← hf]
  constructor
  · rintro ⟨us, hus, hderives', -⟩
    refine plainCall_of_gives hd hscannable .top ⟨[], us, [], ?_, ?_, ?_⟩
    · rwa [List.append_nil]
    · have halt := (hderives'.alternates_append []).2 rfl
      rwa [List.append_nil] at halt
    · rw [List.append_nil, ← hderives'.leaves_eq, leaves_map]
  · intro hcalls
    refine ⟨_, (readsAs_of_plainCall hd hscannable hcalls .top).scan_eq, f.derives_toTokensAt .top,
      ?_⟩
    have hprinted := nesting_toTokensAt_le hderives .top (Nat.le_refl _)
    rw [← hf, toTokensAt_map, Token.nesting, Token.nestingFrom_map] at hprinted
    exact hprinted.trans hle

/-- A call, and a literal with the text of an operator. -/
theorem read_write_python : ∃ e n e' n',
    read Style.python.dialect {} 1 "f((x)) or \\or" = .ok (e, n) ∧
      read Style.python.dialect {} 7 (e.write Style.python.dialect) = .ok (e', n') ∧
        e'.map Token.written = e.map Token.written := by
  have hd : Style.python.dialect.WellFormed := by decide
  have hread : read Style.python.dialect {} 1 "f((x)) or \\or" =
      .ok (or (leaf (.literal ⟨1, [], "f((x))", some ⟨"f", ["(x)"]⟩⟩))
        (leaf (.literal ⟨2, [], "or", none⟩)), 3) := by cbv
  -- the same formula without the numbers
  have hplain : ∀ a ∈ (or (leaf ⟨[], "f((x))", some ⟨"f", ["(x)"]⟩⟩)
      (leaf ⟨[], "or", none⟩)).leaves, Style.python.dialect.PlainCall a := by decide
  obtain ⟨e', n', hagain, hsame⟩ :=
    (read_write_iff hd hread 7).2 ((forall_literal_iff (by rfl)).2 hplain)
  exact ⟨_, 3, e', n', hread, hagain, hsame⟩

/-- An operator that was escaped in the head of a call counts when the call is read again: of the
call of `a&&b` the literal `a` and a call of `b` are left. -/
theorem not_read_write_escaped : ({} : Dialect).WellFormed ∧ ∃ e n,
    read {} {} 1 "a\\&&b(c)" = .ok (e, n) ∧
      ¬ ∃ e' n', read {} {} 1 (e.write {}) = .ok (e', n') ∧
        e'.map Token.written = e.map Token.written := by
  have hread : read {} {} 1 "a\\&&b(c)" =
      .ok (leaf (.literal ⟨1, [], "a&&b(c)", some ⟨"a&&b", ["c"]⟩⟩), 2) := by cbv
  have hprint : write {} (leaf (.literal ⟨1, [], "a&&b(c)", some ⟨"a&&b", ["c"]⟩⟩)) =
      "a&&b(c)" := by decide
  have hagain : read {} {} 1 "a&&b(c)" = .ok (and (leaf (.literal ⟨1, [], "a", none⟩))
      (leaf (.literal ⟨2, [], "b(c)", some ⟨"b", ["c"]⟩⟩)), 3) := by cbv
  refine ⟨by decide, _, 2, hread, ?_⟩
  rintro ⟨e', n', h, hsame⟩
  rw [hprint, hagain] at h
  cases h
  cases hsame

end Formula

end PositiveLogic
