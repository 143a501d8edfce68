import PositiveLogic.Formula.Printer
import PositiveLogic.Proofs.Grammar
import PositiveLogic.Proofs.Scanning

/-!
# What is written of a formula

Two facts about `Formula.toTokensAt`, the tokens of a subformula at its place.

* They are a phrase, of the kind that its place asks for, and the formula is the tree of this phrase
  (`Formula.derives_toTokensAt`). No phrase for the same tree has fewer groups inside of each other
  (`Formula.nesting_toTokensAt_le`).
* If every literal is read back from what is written of it, so are the tokens from what is written
  of them (`Formula.readsAs_spellAt`).
-/

namespace PositiveLogic

namespace Formula

variable {α β : Type}

/-! ## The printed tokens are a phrase -/

/-- A number for each kind of phrase: a phrase is one of all the kinds with larger numbers. -/
def Phrase.rank : Phrase → Nat
  | .factor => 0
  | .term => 1
  | .expr => 2

/-- The kind of phrase that stands at a place. -/
def Place.phrase : Place → Phrase
  | .top | .orLeft => .expr
  | .orRight | .andLeft => .term
  | .andRight => .factor

namespace Derives

variable {p q : Phrase} {ts us : List (Token α)} {e f : Formula (Token α)}

theorem of_factor (h : Derives .factor ts e) (p : Phrase) : Derives p ts e := by
  cases p with
  | factor => exact h
  | term => exact h.factor
  | expr => exact h.factor.term

/-- The leaves of a tree are literals. -/
theorem exists_map_literal (h : Derives p ts e) : ∃ f : Formula α, f.map Token.literal = e := by
  induction h with
  | literal a => exact ⟨leaf a, rfl⟩
  | group _ ih => exact ih
  | factor _ ih => exact ih
  | and _ _ ihl ihr =>
    obtain ⟨l, rfl⟩ := ihl
    obtain ⟨r, rfl⟩ := ihr
    exact ⟨.and l r, rfl⟩
  | term _ ih => exact ih
  | or _ _ ihl ihr =>
    obtain ⟨l, rfl⟩ := ihl
    obtain ⟨r, rfl⟩ := ihr
    exact ⟨.or l r, rfl⟩

theorem nesting_join (hl : Derives p ts e) (hr : Derives q us f) {op : Token α}
    (hop : op.isOperator) :
    Token.nesting (ts ++ op :: us) = max (Token.nesting ts) (Token.nesting us) := by
  have hlevel : op.level 0 = 0 := by
    cases op with
    | opening => cases hop
    | _ => rfl
  rw [Token.nesting, Token.nestingFrom_append, hl.foldl_level, Token.nestingFrom, hlevel,
    hr.nestingFrom_eq 0, hl.nestingFrom_eq 0]
  omega

theorem nesting_group (h : Derives p ts e) :
    Token.nesting (.opening :: ts ++ [.closing]) = Token.nesting ts + 1 := by
  simp only [Token.nesting, List.cons_append, Token.nestingFrom, Token.level,
    Token.nestingFrom_append, h.foldl_level, h.nestingFrom_eq (0 + 1)]
  omega

end Derives

/-- **What is printed is a phrase**, and the formula is its tree. -/
theorem derives_toTokensAt (e : Formula α) (place : Place) :
    Derives place.phrase (e.toTokensAt place) (e.map Token.literal) := by
  induction e generalizing place with
  | leaf a => exact (Derives.literal a).of_factor place.phrase
  | and l r ihl ihr =>
    have hterm := (ihl .andLeft).and (ihr .andRight)
    cases place with
    | top => exact hterm.term
    | orLeft => exact hterm.term
    | orRight => exact hterm
    | andLeft => exact hterm
    | andRight => exact hterm.term.group
  | or l r ihl ihr =>
    have hexpr := (ihl .orLeft).or (ihr .orRight)
    cases place with
    | top => exact hexpr
    | orLeft => exact hexpr
    | orRight => exact hexpr.group.factor
    | andLeft => exact hexpr.group.factor
    | andRight => exact hexpr.group

/-- At any place a formula is printed as at the top, or so in a group. -/
theorem toTokensAt_eq_group (e : Formula α) (place : Place) :
    ∃ needed, e.toTokensAt place = group needed (e.toTokensAt .top) := by
  cases e with
  | leaf a => exact ⟨false, rfl⟩
  | and l r => exact ⟨place.groupsAnd, rfl⟩
  | or l r => exact ⟨place.groupsOr, rfl⟩

theorem nesting_toTokensAt_le_succ (e : Formula α) (place : Place) :
    Token.nesting (e.toTokensAt place) ≤ Token.nesting (e.toTokensAt .top) + 1 := by
  obtain ⟨needed, h⟩ := e.toTokensAt_eq_group place
  rw [h]
  cases needed with
  | false => exact Nat.le_succ _
  | true => exact Nat.le_of_eq (e.derives_toTokensAt .top).nesting_group

theorem nesting_toTokensAt_and {place : Place} (h : place.groupsAnd = false) (l r : Formula α) :
    Token.nesting ((and l r).toTokensAt place) =
      max (Token.nesting (l.toTokensAt .andLeft)) (Token.nesting (r.toTokensAt .andRight)) := by
  rw [toTokensAt, h, group, if_neg Bool.false_ne_true]
  exact (derives_toTokensAt l .andLeft).nesting_join (derives_toTokensAt r .andRight) rfl

theorem nesting_toTokensAt_or {place : Place} (h : place.groupsOr = false) (l r : Formula α) :
    Token.nesting ((or l r).toTokensAt place) =
      max (Token.nesting (l.toTokensAt .orLeft)) (Token.nesting (r.toTokensAt .orRight)) := by
  rw [toTokensAt, h, group, if_neg Bool.false_ne_true]
  exact (derives_toTokensAt l .orLeft).nesting_join (derives_toTokensAt r .orRight) rfl

theorem Place.groupsAnd_eq_false {place : Place} (h : Phrase.term.rank ≤ place.phrase.rank) :
    place.groupsAnd = false := by
  cases place with
  | andRight => cases h
  | _ => rfl

theorem Place.groupsOr_eq_false {place : Place} (h : Phrase.expr.rank ≤ place.phrase.rank) :
    place.groupsOr = false := by
  cases place with
  | top => rfl
  | orLeft => rfl
  | _ => exact absurd h (by decide)

/-- **Printing needs no more groups inside of each other** than any other phrase for the same tree,
at a place for such a phrase. -/
theorem nesting_toTokensAt_le {p : Phrase} {ts : List (Token α)} {e : Formula (Token α)}
    (h : Derives p ts e) (place : Place) (hp : p.rank ≤ place.phrase.rank) :
    Token.nesting (e.toTokensAt place) ≤ Token.nesting ts := by
  induction h generalizing place with
  | literal a => exact Nat.le_refl _
  | group h ih =>
    rw [h.nesting_group]
    exact (nesting_toTokensAt_le_succ _ place).trans
      (Nat.succ_le_succ (ih .top (Nat.le_refl _)))
  | factor _ ih => exact ih place (Nat.zero_le _)
  | @and ts us l r hl hr ihl ihr =>
    rw [hl.nesting_join hr rfl, nesting_toTokensAt_and (Place.groupsAnd_eq_false hp)]
    have hlt := ihl .andLeft (Nat.le_refl _)
    have hrt := ihr .andRight (Nat.le_refl _)
    omega
  | term _ ih => exact ih place (Nat.le_of_lt hp)
  | @or ts us l r hl hr ihl ihr =>
    rw [hl.nesting_join hr rfl, nesting_toTokensAt_or (Place.groupsOr_eq_false hp)]
    have hlt := ihl .orLeft (Nat.le_refl _)
    have hrt := ihr .orRight (Nat.le_refl _)
    omega

/-- A formula is taller than its printed groups nest. -/
theorem nesting_toTokens_lt_depth (e : Formula α) : Token.nesting e.toTokens < e.depth := by
  rw [toTokens]
  induction e with
  | leaf a => exact Nat.zero_lt_one
  | and l r ihl ihr =>
    have hl := l.nesting_toTokensAt_le_succ .andLeft
    have hr := r.nesting_toTokensAt_le_succ .andRight
    rw [nesting_toTokensAt_and rfl, depth]
    omega
  | or l r ihl ihr =>
    have hl := l.nesting_toTokensAt_le_succ .orLeft
    have hr := r.nesting_toTokensAt_le_succ .orRight
    rw [nesting_toTokensAt_or rfl, depth]
    omega

/-! ## Changing the leaves -/

theorem map_group (f : α → β) (needed : Bool) (ts : List (Token α)) :
    (group needed ts).map (Token.map f) = group needed (ts.map (Token.map f)) := by
  cases needed with
  | false => rfl
  | true => simp [group, Token.map]

theorem toTokensAt_map (f : α → β) (e : Formula α) (place : Place) :
    (e.map f).toTokensAt place = (e.toTokensAt place).map (Token.map f) := by
  induction e generalizing place with
  | leaf a => rfl
  | and l r ihl ihr => simp [map, toTokensAt, map_group, ihl, ihr, Token.map]
  | or l r ihl ihr => simp [map, toTokensAt, map_group, ihl, ihr, Token.map]

theorem nesting_toTokens_map (f : α → β) (e : Formula α) :
    Token.nesting (e.map f).toTokens = Token.nesting e.toTokens := by
  rw [toTokens, toTokensAt_map, Token.nesting, Token.nestingFrom_map]
  rfl

end Formula

namespace Dialect

/-! ## The printed text -/

/-- A token of a formula over atoms, as it is written. -/
def spellSign (d : Dialect) (t : Token Atom) : List Char :=
  d.spellSpaced (t.map Token.literal)

/-- A text in a group, if one is needed. -/
def enclose (d : Dialect) (needed : Bool) (cs : List Char) : List Char :=
  if needed then d.opening :: cs ++ [d.closing] else cs

/-- Two operands with an operator between them, and a space on each side of it. -/
def joinWith (d : Dialect) (op : Token Atom) (ls rs : List Char) : List Char :=
  ls ++ (' ' :: d.spelling op ++ ' ' :: rs)

theorem flatMap_spellSign_group (d : Dialect) (needed : Bool) (ts : List (Token Atom)) :
    (Formula.group needed ts).flatMap d.spellSign = d.enclose needed (ts.flatMap d.spellSign) := by
  cases needed with
  | false => rfl
  | true => simp [Formula.group, enclose, spellSign, spellSpaced, Token.map]

end Dialect

namespace Formula

/-- What is written of a subformula at its place. -/
def spellAt (d : Dialect) (place : Place) (e : Formula Atom) : List Char :=
  (e.toTokensAt place).flatMap d.spellSign

variable {d : Dialect} {place : Place} {l r : Formula Atom}

theorem spellAt_leaf (d : Dialect) (place : Place) (a : Atom) :
    (leaf a).spellAt d place = d.spellAtom a :=
  List.append_nil _

theorem spellAt_and : (and l r).spellAt d place = d.enclose place.groupsAnd
    (d.joinWith .and (l.spellAt d .andLeft) (r.spellAt d .andRight)) := by
  have hsign : d.spellSign .and = ' ' :: d.spelling .and ++ [' '] := rfl
  rw [spellAt, toTokensAt, d.flatMap_spellSign_group, List.flatMap_append, List.flatMap_cons, hsign,
    List.append_assoc]
  rfl

theorem spellAt_or : (or l r).spellAt d place = d.enclose place.groupsOr
    (d.joinWith .or (l.spellAt d .orLeft) (r.spellAt d .orRight)) := by
  have hsign : d.spellSign .or = ' ' :: d.spelling .or ++ [' '] := rfl
  rw [spellAt, toTokensAt, d.flatMap_spellSign_group, List.flatMap_append, List.flatMap_cons, hsign,
    List.append_assoc]
  rfl

theorem spell_map_literal (d : Dialect) (e : Formula Atom) :
    (e.map Token.literal).spell d = e.spellAt d .top := by
  unfold spell toTokens
  rw [toTokensAt_map, List.flatMap_map]
  rfl

end Formula

namespace Token

variable {d : Dialect} {cs ls rs suffix : List Char} {ts lts rts : List (Token Atom)}

/-! ## Reading the printed text -/

/-- A text is read as the tokens `ts` in front of everything that can follow it. -/
def ReadsAs (d : Dialect) (cs : List Char) (ts : List (Token Atom)) : Prop :=
  ∀ suffix r, Follows d suffix r → scan d .empty (cs ++ suffix) = thenScan ts r

theorem ReadsAs.of_scan (h : scan d .empty cs = .ok ts) : ReadsAs d cs ts :=
  fun _ _ hsuffix => scan_append hsuffix h

theorem ReadsAs.scan_eq (h : ReadsAs d cs ts) : scan d .empty cs = .ok ts := by
  have hscan := h [] _ (Follows.nil d)
  rw [List.append_nil] at hscan
  rw [hscan, thenScan, List.append_nil]

/-- Behind a text and an operator the rest is read from the start. -/
theorem ReadsAs.scan_joinWith (hl : ReadsAs d ls lts) (hd : d.Separable) {op : Token Atom}
    (hop : op.isOperator) (rs : List Char) :
    scan d .empty (d.joinWith op ls rs) = thenScan (lts ++ [op]) (scan d .empty rs) := by
  have hfollows := Follows.operator hd hop (x := ' ') (y := ' ') rfl rfl rs
  unfold Dialect.joinWith
  rw [hl _ _ hfollows, thenScan_thenScan]

theorem ReadsAs.joinWith (hl : ReadsAs d ls lts) (hr : ReadsAs d rs rts) (hd : d.Separable)
    {op : Token Atom} (hop : op.isOperator) :
    ReadsAs d (d.joinWith op ls rs) (lts ++ op :: rts) := by
  intro suffix r hsuffix
  have hassoc : d.joinWith op ls rs ++ suffix = d.joinWith op ls (rs ++ suffix) := by
    simp [Dialect.joinWith]
  rw [hassoc, hl.scan_joinWith hd hop, hr _ _ hsuffix, thenScan_thenScan, List.append_assoc]
  rfl

theorem ReadsAs.enclose (h : ReadsAs d cs ts) (hd : d.WellFormed) (needed : Bool) :
    ReadsAs d (d.enclose needed cs) (Formula.group needed ts) := by
  cases needed with
  | false => exact h
  | true =>
    intro suffix r hsuffix
    have hempty : scan d .empty suffix = r := by
      rw [hsuffix.2, d.flush_of_text_eq_nil rfl, thenScan_nil]
    have hassoc : d.enclose true cs ++ suffix = d.opening :: (cs ++ d.closing :: suffix) := by
      simp [Dialect.enclose]
    rw [hassoc, scan_empty_opening hd, h _ _ (Follows.closing hd suffix), hempty, thenScan_thenScan,
      thenScan_thenScan]
    rfl

end Token

namespace Formula

variable {d : Dialect}

/-- **What is printed is read back as the tokens that are printed**, if every literal is. -/
theorem readsAs_spellAt (hd : d.WellFormed) {e : Formula Atom}
    (h : ∀ a ∈ e.leaves, Token.scan d .empty (d.spellAtom a) = .ok [.literal a]) (place : Place) :
    Token.ReadsAs d (e.spellAt d place) (e.toTokensAt place) := by
  induction e generalizing place with
  | leaf a =>
    rw [spellAt_leaf]
    exact .of_scan (h a (by simp [leaves]))
  | and l r ihl ihr =>
    have hl := ihl (fun a ha => h a (List.mem_append_left _ ha)) .andLeft
    have hr := ihr (fun a ha => h a (List.mem_append_right _ ha)) .andRight
    rw [spellAt_and]
    exact (hl.joinWith hr hd.separable rfl).enclose hd place.groupsAnd
  | or l r ihl ihr =>
    have hl := ihl (fun a ha => h a (List.mem_append_left _ ha)) .orLeft
    have hr := ihr (fun a ha => h a (List.mem_append_right _ ha)) .orRight
    rw [spellAt_or]
    exact (hl.joinWith hr hd.separable rfl).enclose hd place.groupsOr

end Formula

end PositiveLogic
