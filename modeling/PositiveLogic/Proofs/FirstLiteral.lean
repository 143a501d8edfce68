import PositiveLogic.Proofs.Calls
import PositiveLogic.Proofs.Grammar

/-!
# The first literal of a reading

What has to be so if a call is read back. Where an operand is expected, only opening characters can
stand in front of the first literal, so the scanner comes to it by single characters.

* `Token.Alternates`: operands and operators alternate, as they do in every phrase
  (`Derives.alternates_append`).
* `Token.Seeks d a`: the way of the scanner to a call `a` in front of which no other literal stands.
  It keeps inside of the text that is open around it (`Seeks.length_lt`), so it cannot pass the
  opening character behind the head of `a` (`Seeks.fits`).
* `Token.plainHead_of_scan`: if the first literal of what is written of a call is this call, its
  head is plain.
-/

namespace PositiveLogic

namespace Token

variable {α : Type}

/-! ## Operands and operators -/

/-- Operands and operators alternate in the rest of a text, where an operand is expected next or
not. -/
def Alternates : Bool → List (Token α) → Prop
  | operand, [] => operand = false
  | operand, literal _ :: ts => operand = true ∧ Alternates false ts
  | operand, opening :: ts => operand = true ∧ Alternates true ts
  | operand, closing :: ts => operand = false ∧ Alternates false ts
  | operand, and :: ts | operand, or :: ts => operand = false ∧ Alternates true ts

/-- The first literal of a list, if only opening characters stand in front of it. -/
def leading? : List (Token α) → Option α
  | opening :: ts => leading? ts
  | literal a :: _ => some a
  | _ => none

/-- Where an operand is expected, the first literal stands behind opening characters only. -/
theorem leading?_of_alternates {ts us : List (Token α)} {a : α} (h : Alternates true ts)
    (hliterals : ts.filter isLiteral = literal a :: us) : leading? ts = some a := by
  induction ts with
  | nil => cases hliterals
  | cons t ts ih =>
    cases t with
    | literal b =>
      cases hliterals
      rfl
    | opening => exact ih h.2 hliterals
    | _ => exact absurd h.1 (by simp)

end Token

namespace Formula

/-- **Behind a phrase an operator is expected.** -/
theorem Derives.alternates_append {α : Type} {p : Phrase} {ts : List (Token α)}
    {e : Formula (Token α)} (h : Derives p ts e) (us : List (Token α)) :
    Token.Alternates true (ts ++ us) ↔ Token.Alternates false us := by
  induction h generalizing us with
  | literal a => simp [Token.Alternates]
  | group _ ih => simp [Token.Alternates, ih]
  | factor _ ih => exact ih us
  | and _ _ ihl ihr => simp [Token.Alternates, ihl, ihr]
  | term _ ih => exact ih us
  | or _ _ ihl ihr => simp [Token.Alternates, ihl, ihr]

end Formula

namespace Token

variable {d : Dialect} {b b' : Buffer} {c : Char} {head cs cs' rest suffix : List Char}
  {body body' : CallBody} {out ts : List (Token Atom)} {a : Atom}

/-! ## The way to a call -/

/-- The scanner comes to the call `a` before it comes to any other literal and to the end of any
group. -/
inductive Seeks (d : Dialect) (a : Atom) : Buffer → List Char → Prop
  /-- The call stands here. -/
  | found {b : Buffer} {cs : List Char} {body : CallBody} :
      CallBody.read d 0 cs = some body → d.call b.text body = a → Seeks d a b (d.opening :: cs)
  /-- A blank is skipped. -/
  | skip {b : Buffer} {c : Char} {cs : List Char} :
      Text.isBlank c = true → Seeks d a .empty cs → Seeks d a b (c :: cs)
  /-- A character is added to the literal. -/
  | push {b : Buffer} {c : Char} {cs : List Char} :
      Fits d b c cs → Seeks d a (b.push c) cs → Seeks d a b (c :: cs)
  /-- An escaped character is added to the literal. -/
  | escaped {b : Buffer} {e : Char} {cs : List Char} :
      Seeks d a (b.pushEscaped e) cs → Seeks d a b (escape :: e :: cs)
  /-- A group opens. -/
  | group {b : Buffer} {cs : List Char} : Seeks d a .empty cs → Seeks d a b (d.opening :: cs)

theorem leading?_flush_append (hcall : a.call ≠ none) (h : leading? (d.flush b ++ ts) = some a) :
    leading? ts = some a := by
  by_cases htext : b.text = []
  · rwa [d.flush_of_text_eq_nil htext] at h
  · rw [d.flush_of_text_ne_nil htext] at h
    cases h
    exact absurd rfl hcall

/-- **If a call comes first, the scanner finds it.** -/
theorem seeks_of_scan (h : scan d b cs = .ok ts) (ha : leading? ts = some a)
    (hcall : a.call ≠ none) : Seeks d a b cs := by
  have hscans := scan_eq_ok_iff_scans.1 h
  clear h
  induction hscans with
  | @done b =>
    rw [← List.append_nil (d.flush b)] at ha
    cases leading?_flush_append hcall ha
  | move hmove _ ih =>
    cases hmove with
    | blank_ends hc _ => exact .skip hc (ih (leading?_flush_append hcall ha))
    | blank_kept hc hs => exact .push (Or.inl ⟨hc, hs⟩) (ih ha)
    | escaped => exact .escaped (ih ha)
    | quoted _ _ _ _ =>
      cases ha
      exact absurd rfl hcall
    | @operator _ _ _ op _ hop =>
      rw [List.append_assoc] at ha
      have hfirst := leading?_flush_append hcall ha
      have hoperator := Dialect.isOperator_of_operatorAt? hop
      cases op with
      | and => cases hfirst
      | or => cases hfirst
      | _ => cases hoperator
    | group _ _ _ => exact .group (ih ha)
    | call _ _ _ hread =>
      cases ha
      exact .found hread rfl
    | closing _ _ _ =>
      rw [List.append_assoc] at ha
      cases leading?_flush_append hcall ha
    | text hc => exact .push (Or.inr hc) (ih ha)

/-- **The way to a call stays inside**: where the parameters of another call are read at the same
place, these end behind the call that is found. -/
theorem Seeks.length_lt (hd : d.WellFormed) (h : Seeks d (d.call head body) b cs) {depth : Nat}
    (hread : CallBody.read d depth cs = some body') : body.raw.length < body'.raw.length := by
  generalize ha : d.call head body = a at h
  induction h generalizing depth body' with
  | @found b cs found hfound hcall =>
    obtain ⟨-, hraw⟩ := Dialect.call_inj (ha.trans hcall.symm)
    rw [CallBody.read_opening hd.opening_ne_escape] at hread
    obtain ⟨inner, hinner, rfl⟩ := Option.map_eq_some_iff.1 hread
    have hlt := CallBody.length_raw_lt (Nat.succ_pos depth) hfound hinner
    rw [hraw]
    exact Nat.lt_succ_of_lt hlt
  | skip hc _ ih =>
    obtain ⟨hescape, hopen, hclose⟩ := hd.not_sign_of_blank hc
    obtain ⟨inner, hinner, hraw, -⟩ := CallBody.read_other hescape hopen hclose hread
    rw [hraw]
    exact Nat.lt_succ_of_lt (ih hinner)
  | push hc _ ih =>
    obtain ⟨hescape, hopen, hclose⟩ := hc.not_sign hd
    obtain ⟨inner, hinner, hraw, -⟩ := CallBody.read_other hescape hopen hclose hread
    rw [hraw]
    exact Nat.lt_succ_of_lt (ih hinner)
  | escaped _ ih =>
    rw [CallBody.read_escape] at hread
    obtain ⟨inner, hinner, rfl⟩ := Option.map_eq_some_iff.1 hread
    exact Nat.lt_succ_of_lt (Nat.lt_succ_of_lt (ih hinner))
  | group _ ih =>
    rw [CallBody.read_opening hd.opening_ne_escape] at hread
    obtain ⟨inner, hinner, rfl⟩ := Option.map_eq_some_iff.1 hread
    exact Nat.lt_succ_of_lt (ih hinner)

/-- Behind the opening character of a call this call is not found again. -/
theorem not_seeks_of_read (hd : d.WellFormed) (hread : CallBody.read d 0 rest = some body) :
    ¬ Seeks d (d.call head body) b rest :=
  fun h => Nat.lt_irrefl _ (h.length_lt hd hread)

/-- **The way to a call goes through its head**: if no more stands in front of its opening character
than its head holds, this is the head, and every character of it fits. -/
theorem Seeks.fits (hd : d.WellFormed) (hread : CallBody.read d 0 rest = some body)
    (h : Seeks d (d.call head body) b (cs ++ d.opening :: rest))
    (hlen : b.marks.length + cs.length ≤ head.length) :
    FitAll d (d.opening :: rest) b (cs.map Mark.plain) ∧
      (b.extend (cs.map Mark.plain)).text = head := by
  generalize hall : cs ++ d.opening :: rest = all at h
  generalize ha : d.call head body = a at h
  -- a head of as many characters as are left has lost none
  have length_le : ∀ {b : Buffer} {cs : List Char},
      (b.extend (cs.map Mark.plain)).text = head → head.length ≤ b.marks.length + cs.length := by
    rintro b cs rfl
    have := Buffer.length_text_le (b.extend (cs.map Mark.plain))
    simpa using this
  induction h generalizing cs with
  | @found b xs found hfound hcall =>
    obtain ⟨hhead, -⟩ := Dialect.call_inj (ha.trans hcall.symm)
    have htext := Buffer.length_text_le b
    rw [← hhead] at htext
    obtain rfl : cs = [] := List.length_eq_zero_iff.1 (by omega)
    exact ⟨trivial, hhead.symm⟩
  | skip hc _ ih =>
    cases cs with
    | nil =>
      cases hall
      exact absurd rfl (hd.not_sign_of_blank hc).2.1
    | cons c cs =>
      cases hall
      rw [List.length_cons] at hlen
      have hle := length_le (ih (by rw [Buffer.marks_empty, List.length_nil]; omega) rfl).2
      rw [Buffer.marks_empty, List.length_nil] at hle
      omega
  | push hc _ ih =>
    cases cs with
    | nil =>
      cases hall
      exact absurd rfl (hc.not_sign hd).2.1
    | cons c cs =>
      cases hall
      rw [List.length_cons] at hlen
      obtain ⟨hfit, htext⟩ := ih (by rw [Buffer.marks_push, List.length_append]; simp; omega) rfl
      rw [Buffer.extend_push] at htext
      refine ⟨⟨fun _ => ?_, hfit⟩, htext⟩
      rwa [Mark.flatMap_spell_plain]
  | escaped hseeks ih =>
    cases cs with
    | nil => exact absurd (List.cons.inj hall).1 hd.opening_ne_escape
    | cons c cs =>
      cases cs with
      | nil =>
        cases hall
        subst ha
        exact absurd hseeks (not_seeks_of_read hd hread)
      | cons e cs =>
        cases hall
        rw [List.length_cons, List.length_cons] at hlen
        have hle := length_le
          (ih (by rw [Buffer.marks_pushEscaped, List.length_append]; simp; omega) rfl).2
        rw [Buffer.marks_pushEscaped, List.length_append, List.length_singleton] at hle
        omega
  | group hseeks ih =>
    cases cs with
    | nil =>
      cases hall
      subst ha
      exact absurd hseeks (not_seeks_of_read hd hread)
    | cons c cs =>
      cases hall
      rw [List.length_cons] at hlen
      have hle := length_le (ih (by rw [Buffer.marks_empty, List.length_nil]; omega) rfl).2
      rw [Buffer.marks_empty, List.length_nil] at hle
      omega

/-- **A call that is read back has a plain head.** -/
theorem plainHead_of_scan (hd : d.WellFormed) (hread : CallBody.read d 0 cs = some body)
    (h : scan d .empty (d.spellAtom (d.call head body) ++ suffix) = .ok ts)
    (hfirst : leading? ts = some (d.call head body)) : d.PlainHead head := by
  rw [Dialect.spellAtom_call, List.append_assoc, List.cons_append] at h
  have hseeks := seeks_of_scan h hfirst (by simp [Dialect.call])
  have hagain := (CallBody.read_raw hread).2 suffix
  rw [Dialect.plainHead_iff hd]
  exact Seeks.fits hd hagain hseeks (by simp)

end Token

end PositiveLogic
