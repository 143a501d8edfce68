import PositiveLogic.Proofs.Parameters

/-!
# An escape character that takes nothing

A text that ends in an odd number of escape characters cannot be read as marks. The scanner reads
whole marks, whatever it reads, so it comes to the last of them in some place. In a plain literal and
between quotes it says what is wrong there. In the parameters of a call it says that these are not
closed, and where they were opened.

* `Token.Moves.ofText?_eq_none_iff`: what the scanner passes are whole marks.
* `Token.OpenCall`: the parameters of a call that nothing closes.
* `Token.ofText_eq_danglingEscape_iff`: a text has the error of an escape character that takes nothing
  exactly if it ends in one and not in the parameters of a call.
-/

namespace PositiveLogic

namespace Quoted

variable {quote : Char} {cs text rest : List Char} {fault : Fault}

theorem ofText?_eq_none_iff (h : read quote cs = .ok (text, rest)) :
    Mark.ofText? cs = none ↔ Mark.ofText? rest = none := by
  fun_induction read quote cs generalizing text with
  | case1 => cases h
  | case2 => cases h
  | case3 e cs ih =>
    obtain ⟨t, ht, -⟩ := keep_eq_ok_iff.1 h
    rw [Mark.ofText?_escape, Option.map_eq_none_iff, ih ht]
  | case4 cs hquote =>
    cases h
    rw [Mark.ofText?_cons hquote, Option.map_eq_none_iff]
  | case5 c cs hc _ ih =>
    obtain ⟨t, ht, -⟩ := keep_eq_ok_iff.1 h
    rw [Mark.ofText?_cons hc, Option.map_eq_none_iff, ih ht]

/-- **What is wrong with a quote that is not closed**: it ends in an escape character that takes
nothing exactly if the text does. -/
theorem ofText?_eq_none_iff_of_error (h : read quote cs = .error fault) :
    Mark.ofText? cs = none ↔ fault = .danglingEscape := by
  fun_induction read quote cs with
  | case1 =>
    cases h
    simp [Mark.ofText?]
  | case2 =>
    cases h
    simp [Mark.ofText?]
  | case3 e cs ih =>
    rw [Mark.ofText?_escape, Option.map_eq_none_iff, ih (keep_eq_error_iff.1 h)]
  | case4 => cases h
  | case5 c cs hc _ ih =>
    rw [Mark.ofText?_cons hc, Option.map_eq_none_iff, ih (keep_eq_error_iff.1 h)]

end Quoted

namespace Token

variable {d : Dialect} {b b' : Buffer} {cs cs' rest : List Char} {out ts : List (Token Atom)}
  {e : ScanError}

/-! ## What the scanner passes -/

/-- A move passes whole marks, where no operator holds the escape character. -/
theorem Move.ofText?_eq_none_iff (hand : escape ∉ d.andOp.toList) (hor : escape ∉ d.orOp.toList)
    (h : Move d b cs out b' cs') : Mark.ofText? cs = none ↔ Mark.ofText? cs' = none := by
  have one : ∀ {c : Char}, c ≠ escape → ∀ xs : List Char,
      Mark.ofText? (c :: xs) = none ↔ Mark.ofText? xs = none := by
    intro c hc xs
    rw [Mark.ofText?_cons hc, Option.map_eq_none_iff]
  have blank : ∀ {c : Char}, Text.isBlank c = true → c ≠ escape := by
    rintro c hc rfl
    cases hc
  cases h with
  | blank_ends hc _ => exact one (blank hc) _
  | blank_kept hc _ => exact one (blank hc) _
  | escaped => rw [Mark.ofText?_escape, Option.map_eq_none_iff]
  | quoted _ hescape _ hread => rw [one hescape, Quoted.ofText?_eq_none_iff hread]
  | @operator c cs rest op _ hop =>
    obtain ⟨-, hcs⟩ := Dialect.eq_spelling_append_of_operatorAt? hop
    have hspell : escape ∉ d.spelling op := by
      cases op with
      | or => exact hor
      | _ => exact hand
    rw [hcs, Mark.ofText?_append_eq_none_iff (Mark.ofText?_of_not_mem hspell)]
  | group hc _ _ => exact one hc.ne_escape _
  | @call cs body hc _ _ hread =>
    obtain ⟨ms, hms⟩ := CallBody.exists_hasMarks hread
    rw [one hc.ne_escape, (CallBody.read_raw hread).1, Mark.ofText?_append_eq_none_iff hms.raw]
  | closing hc _ _ => exact one hc.ne_escape _
  | text hc => exact one hc.1.ne_escape _

/-- **What the scanner passes are whole marks.** -/
theorem Moves.ofText?_eq_none_iff (hand : escape ∉ d.andOp.toList) (hor : escape ∉ d.orOp.toList)
    (h : Moves d b cs ts b' cs') : Mark.ofText? cs = none ↔ Mark.ofText? cs' = none := by
  induction h with
  | refl => rfl
  | snoc _ hmove ih => exact ih.trans (hmove.ofText?_eq_none_iff hand hor)

/-- A text that is read without an error is one of whole marks. -/
theorem Scans.ofText?_ne_none (hand : escape ∉ d.andOp.toList) (hor : escape ∉ d.orOp.toList)
    (h : Scans d b cs ts) : Mark.ofText? cs ≠ none := by
  induction h with
  | done => simp [Mark.ofText?]
  | move hmove _ ih => exact mt (hmove.ofText?_eq_none_iff hand hor).1 ih

/-! ## Parameters that are not closed -/

/-- Parameters of a call that nothing closes: the scanner comes to their opening character, behind the
beginning of a literal, and no text from there on is one of balanced opening and closing characters. -/
structure OpenCall (d : Dialect) (cs rest : List Char) : Prop where
  reached : ∃ ts b, Moves d .empty cs ts b (d.opening :: rest) ∧ OpensCall d b rest
  not_closed : ¬ ∃ raw ms, raw <+: d.opening :: rest ∧ d.Encloses raw ms

theorem OpensCall.not_closed_iff (h : OpensCall d b rest) :
    (¬ ∃ raw ms, raw <+: d.opening :: rest ∧ d.Encloses raw ms) ↔ CallBody.read d 0 rest = none := by
  rw [← CallBody.exists_read_iff h.sign.ne_escape, Option.eq_none_iff_forall_ne_some, not_exists]

theorem OpenCall.scan_eq (h : OpenCall d cs rest) :
    scan d .empty cs = .error ⟨.unterminatedContainer, rest.length + 1⟩ := by
  obtain ⟨ts, b, hmoves, hopens⟩ := h.reached
  exact scan_eq_error_iff.2
    ⟨ts, b, _, hmoves, .call hopens (hopens.not_closed_iff.1 h.not_closed)⟩

/-- Where parameters are not closed the error is about them. -/
theorem scan_eq_unterminatedContainer_iff {position : Nat} :
    scan d .empty cs = .error ⟨.unterminatedContainer, position⟩ ↔
      ∃ rest, OpenCall d cs rest ∧ position = rest.length + 1 := by
  constructor
  · intro h
    obtain ⟨ts, b, cs', hmoves, hstuck⟩ := scan_eq_error_iff.1 h
    cases hstuck with
    | call hopens hread =>
      exact ⟨_, ⟨⟨ts, b, hmoves, hopens⟩, hopens.not_closed_iff.2 hread⟩, rfl⟩
  · rintro ⟨rest, hopen, rfl⟩
    exact hopen.scan_eq

/-! ## The error at the end -/

/-- **An escape character that takes nothing is found**, unless the text ends in the parameters of a
call. -/
theorem scan_eq_danglingEscape_iff (hand : escape ∉ d.andOp.toList)
    (hor : escape ∉ d.orOp.toList) : scan d .empty cs = .error ⟨.danglingEscape, 1⟩ ↔
      Mark.ofText? cs = none ∧ ∀ rest, ¬ OpenCall d cs rest := by
  constructor
  · intro h
    constructor
    · obtain ⟨ts, b, cs', hmoves, hstuck⟩ := scan_eq_error_iff.1 h
      rw [hmoves.ofText?_eq_none_iff hand hor]
      cases hstuck with
      | escape => rfl
      | quotedEscape _ hescape _ hread =>
        rw [Mark.ofText?_cons hescape, (Quoted.ofText?_eq_none_iff_of_error hread).2 rfl]
        rfl
    · intro rest hopen
      rw [hopen.scan_eq] at h
      cases h
  · rintro ⟨hnone, hopen⟩
    -- a text that is read is one of whole marks; of the places where the scanner is stuck one is left
    cases hscan : scan d .empty cs with
    | ok ts => exact absurd hnone ((scan_eq_ok_iff_scans.1 hscan).ofText?_ne_none hand hor)
    | error e =>
      obtain ⟨ts, b, cs', hmoves, hstuck⟩ := scan_eq_error_iff.1 hscan
      rw [hmoves.ofText?_eq_none_iff hand hor] at hnone
      cases hstuck with
      | escape => rfl
      | quotedEscape _ _ _ _ => rfl
      | quoted _ hescape _ hread =>
        rw [Mark.ofText?_cons hescape, Option.map_eq_none_iff,
          Quoted.ofText?_eq_none_iff_of_error hread] at hnone
        cases hnone
      | call hopens hread =>
        exact absurd ⟨⟨ts, b, hmoves, hopens⟩, hopens.not_closed_iff.2 hread⟩ (hopen _)

/-- **When a text has the error of an escape character that takes nothing.** It has it exactly if it
ends in an odd number of escape characters and not in the parameters of a call; the error is at the
last character. In the parameters of a call the error is that of parameters that are not closed, at
their opening character, whatever the text ends in. -/
theorem ofText_eq_danglingEscape_iff (hand : escape ∉ d.andOp.toList)
    (hor : escape ∉ d.orOp.toList) (s : String) :
    (ofText d s = .error ⟨.danglingEscape, s.length - 1⟩ ↔
      Odd (s.toList.rtakeWhile (· == escape)).length ∧ ∀ rest, ¬ OpenCall d s.toList rest) ∧
    (∀ position, ofText d s = .error ⟨.danglingEscape, position⟩ → position = s.length - 1) ∧
    ∀ position, ofText d s = .error ⟨.unterminatedContainer, position⟩ ↔
      ∃ rest, OpenCall d s.toList rest ∧ position = s.length - (rest.length + 1) := by
  have last : ∀ position, ofText d s = .error ⟨.danglingEscape, position⟩ →
      scan d .empty s.toList = .error ⟨.danglingEscape, 1⟩ ∧ position = s.length - 1 := by
    intro position h
    obtain ⟨⟨fault, place⟩, hscan, he⟩ := ofText_eq_error_iff.1 h
    obtain ⟨rfl, rfl⟩ := ScanError.mk.inj he
    obtain ⟨front, back, -, hplace, hback⟩ := pointsInto_of_scan hscan
    obtain rfl := hback rfl
    obtain rfl : place = 1 := hplace
    exact ⟨hscan, rfl⟩
  refine ⟨?_, fun position h => (last position h).2, fun position => ?_⟩
  · rw [← Mark.ofText?_eq_none_iff, ← scan_eq_danglingEscape_iff hand hor]
    exact ⟨fun h => (last _ h).1, fun h => ofText_eq_error_iff.2 ⟨_, h, rfl⟩⟩
  · rw [ofText_eq_error_iff]
    constructor
    · rintro ⟨⟨fault, place⟩, hscan, he⟩
      obtain ⟨rfl, rfl⟩ := ScanError.mk.inj he
      obtain ⟨rest, hopen, rfl⟩ := scan_eq_unterminatedContainer_iff.1 hscan
      exact ⟨rest, hopen, rfl⟩
    · rintro ⟨rest, hopen, rfl⟩
      exact ⟨_, hopen.scan_eq, rfl⟩

/-- An escape character that takes nothing, behind one that is taken by another, between quotes in which
a call seems to begin. -/
theorem ofText_danglingEscape_quoted : ∃ s, s = "f(x) && 'g(\\\\\\" ∧
    ofText {} s = .error ⟨.danglingEscape, 13⟩ ∧
    Odd (s.toList.rtakeWhile (· == escape)).length ∧ ∀ rest, ¬ OpenCall {} s.toList rest := by
  have hscan : ofText {} "f(x) && 'g(\\\\\\" = .error ⟨.danglingEscape, 13⟩ := by cbv
  obtain ⟨hodd, hopen⟩ := (ofText_eq_danglingEscape_iff (by decide) (by decide) _).1.1 hscan
  exact ⟨_, rfl, hscan, hodd, hopen⟩

/-- In the parameters of a call an escape character that takes nothing is not reported. -/
theorem not_danglingEscape_in_call : escape ∉ ({} : Dialect).andOp.toList ∧
    escape ∉ ({} : Dialect).orOp.toList ∧ ∃ s : String, s = "f(\\" ∧
    ¬ (ofText {} s = .error ⟨.danglingEscape, s.length - 1⟩ ↔
      Odd (s.toList.rtakeWhile (· == escape)).length) := by
  have hscan : ofText {} "f(\\" = .error ⟨.unterminatedContainer, 1⟩ := by cbv
  have hodd : Odd ("f(\\".toList.rtakeWhile (· == escape)).length := by decide
  refine ⟨by decide, by decide, _, rfl, fun h => ?_⟩
  have herror := h.2 hodd
  rw [hscan] at herror
  cases herror

end Token

end PositiveLogic
