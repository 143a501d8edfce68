import Mathlib.Logic.Function.Iterate
import PositiveLogic.Proofs.Composition

/-!
# The scanner as a cursor on the text

`Token.scan` goes from rest to rest of a text and counts the inner pairs of a call in a natural number.
Here it is the machine that such a scanner is told to be: a cursor with a position in the text, which
looks at the characters there, and with a count of the pairs that are open, which is raised and lowered
and could drop below zero. It takes every dialect as it is, also one in which the same character opens
and closes or in which the quote is a blank.

* `Cursor.Sound`: the cursor is inside the text, the count of open pairs is not negative, and where a
  quote or a call began its sign stands.
* `Cursor.Sound.advances`: a step of such a cursor gives such a cursor, it does not change what the
  scanner answers from the cursor on, and it brings the end nearer (`Cursor.Advances`).
* `Cursor.sound_run`, `Cursor.exists_finished`: what follows for every number of steps.
* `Cursor.run_is_safe`: so the cursor stays inside the text, comes to an end, and ends with the answer of
  `Token.ofText`; an error is at a character of the text, the sign that the error is about.
-/

namespace PositiveLogic

/-- What a cursor is in the midst of. -/
inductive Phase
  /-- Plain text, behind the literal that has begun. -/
  | plain (b : Buffer)
  /-- A quoted literal; its opening quote stands at `start`. -/
  | quoted (start : Nat)
  /-- The parameters of a call; their opening character stands at `start`, and `level` pairs are
  open. -/
  | call (start : Nat) (level : Int)
  /-- Nothing: the text has been read or refused. -/
  | finished (answer : Except ScanError Unit)

/-- Where a scanner stands in a text. -/
structure Cursor where
  position : Nat
  phase : Phase

namespace Cursor

variable {d : Dialect} {text : List Char} {i start : Nat} {b : Buffer} {level : Int}

/-! ## Steps -/

/-- A step in plain text. The opening character of a call is left to the steps in its parameters. -/
def stepPlain (d : Dialect) (text : List Char) (i : Nat) (b : Buffer) : Cursor :=
  match text[i]? with
  | none => ⟨i, .finished (.ok ())⟩
  | some c =>
    if Text.isBlank c then ⟨i + 1, .plain (if d.splitOnBlank then .empty else b.push c)⟩
    else if c = escape then
      match text[i + 1]? with
      | none => ⟨i, .finished (.error ⟨.danglingEscape, i⟩)⟩
      | some e => ⟨i + 2, .plain (b.pushEscaped e)⟩
    else if c = d.quote ∧ b.isVacant then ⟨i + 1, .quoted i⟩
    else
      match d.operatorAt? (text.drop i) with
      | some (op, _) => ⟨i + (d.spelling op).length, .plain .empty⟩
      | none =>
        if c = d.opening then if b.isVacant then ⟨i + 1, .plain .empty⟩ else ⟨i, .call i 0⟩
        else if c = d.closing then ⟨i + 1, .plain .empty⟩
        else ⟨i + 1, .plain (b.push c)⟩

/-- A step between quotes. -/
def stepQuoted (d : Dialect) (text : List Char) (i start : Nat) : Cursor :=
  match text[i]? with
  | none => ⟨i, .finished (.error ⟨.unterminatedQuote, start⟩)⟩
  | some c =>
    if c = escape then
      match text[i + 1]? with
      | none => ⟨i, .finished (.error ⟨.danglingEscape, i⟩)⟩
      | some _ => ⟨i + 2, .quoted start⟩
    else if c = d.quote then ⟨i + 1, .plain .empty⟩
    else ⟨i + 1, .quoted start⟩

/-- A step in the parameters of a call, from their opening character on. -/
def stepCall (d : Dialect) (text : List Char) (i start : Nat) (level : Int) : Cursor :=
  match text[i]? with
  | none => ⟨i, .finished (.error ⟨.unterminatedContainer, start⟩)⟩
  | some c =>
    if c = escape then
      match text[i + 1]? with
      | none => ⟨i, .finished (.error ⟨.unterminatedContainer, start⟩)⟩
      | some _ => ⟨i + 2, .call start level⟩
    else if c = d.opening then ⟨i + 1, .call start (level + 1)⟩
    else if c = d.closing then
      if level - 1 = 0 then ⟨i + 1, .plain .empty⟩ else ⟨i + 1, .call start (level - 1)⟩
    else ⟨i + 1, .call start level⟩

/-- One step of a cursor. A finished one stays as it is. -/
def step (d : Dialect) (text : List Char) : Cursor → Cursor
  | ⟨i, .plain b⟩ => stepPlain d text i b
  | ⟨i, .quoted start⟩ => stepQuoted d text i start
  | ⟨i, .call start level⟩ => stepCall d text i start level
  | ⟨i, .finished answer⟩ => ⟨i, .finished answer⟩

/-- The cursor in front of the text. -/
def initial : Cursor := ⟨0, .plain .empty⟩

/-- Where a cursor stands after so many steps. -/
def run (d : Dialect) (text : List Char) (steps : Nat) : Cursor :=
  (step d text)^[steps] initial

theorem run_succ (d : Dialect) (text : List Char) (steps : Nat) :
    run d text (steps + 1) = step d text (run d text steps) :=
  Function.iterate_succ_apply' (step d text) steps initial

/-! ## What is known of a cursor -/

/-- What is known of every cursor of a run: it does not pass the end of the text, the count of open
pairs is zero in front of the opening character of a call and positive behind it, and the sign that a
quote or a call began with stands where it began. -/
inductive Sound (d : Dialect) (text : List Char) : Cursor → Prop
  | plain {i : Nat} {b : Buffer} (hi : i ≤ text.length) : Sound d text ⟨i, .plain b⟩
  | quoted {i start : Nat} (hi : i ≤ text.length) (hstart : text[start]? = some d.quote) :
      Sound d text ⟨i, .quoted start⟩
  | opens {i : Nat} (hstart : text[i]? = some d.opening) (hescape : d.opening ≠ escape) :
      Sound d text ⟨i, .call i 0⟩
  | inside {i start : Nat} {level : Int} (hi : i ≤ text.length)
      (hstart : text[start]? = some d.opening) {depth : Nat} (hlevel : level = depth + 1) :
      Sound d text ⟨i, .call start level⟩
  | finished {i : Nat} {answer : Except ScanError Unit} (hi : i ≤ text.length) :
      Sound d text ⟨i, .finished answer⟩

/-- The answer of a scanner without its tokens, with the place of an error counted from the start of the
text. -/
def verdict (text : List Char) : Except ScanError (List (Token Atom)) → Except ScanError Unit
  | .ok _ => .ok ()
  | .error e => .error { e with position := text.length - e.position }

/-- What the scanner answers if a quote that began at `start` is read so. -/
def quotedOutcome (d : Dialect) (text : List Char) (start : Nat) : Quoted.Outcome →
    Except ScanError Unit
  | .ok (_, rest) => verdict text (Token.scan d .empty rest)
  | .error .danglingEscape => .error ⟨.danglingEscape, text.length - 1⟩
  | .error fault => .error ⟨fault, start⟩

/-- What the scanner answers if the parameters of a call that began at `start` are read so. -/
def callOutcome (d : Dialect) (text : List Char) (start : Nat) : Option CallBody →
    Except ScanError Unit
  | some body => verdict text (Token.scan d .empty body.rest)
  | none => .error ⟨.unterminatedContainer, start⟩

/-- What the scanner answers from a cursor on. The number of inner pairs is one less than that of the
pairs that are open. -/
def outcome (d : Dialect) (text : List Char) : Cursor → Except ScanError Unit
  | ⟨i, .plain b⟩ => verdict text (Token.scan d b (text.drop i))
  | ⟨i, .quoted start⟩ => quotedOutcome d text start (Quoted.read d.quote (text.drop i))
  | ⟨i, .call start level⟩ => callOutcome d text start
      (if level = 0 then CallBody.read d 0 (text.drop (i + 1))
        else CallBody.read d (level - 1).toNat (text.drop i))
  | ⟨_, .finished answer⟩ => answer

/-- A bound on the number of steps to the end. -/
def rank (text : List Char) : Cursor → Nat
  | ⟨_, .finished _⟩ => 0
  | ⟨i, .call _ level⟩ => 2 * (text.length - i) + (if level = 0 then 0 else 1)
  | ⟨i, _⟩ => 2 * (text.length - i) + 1

/-- A cursor that comes behind another one: it is nearer to the end, and the scanner answers the same
from there on. -/
structure Advances (d : Dialect) (text : List Char) (c c' : Cursor) : Prop where
  sound : Sound d text c'
  outcome_eq : c'.outcome d text = c.outcome d text
  rank_lt : c'.rank text < c.rank text

@[simp] theorem verdict_thenScan (text : List Char) (ts : List (Token Atom))
    (r : Except ScanError (List (Token Atom))) :
    verdict text (Token.thenScan ts r) = verdict text r := by
  cases r <;> rfl

theorem lt_length_of_getElem? {c : Char} (h : text[i]? = some c) : i < text.length :=
  (List.getElem?_eq_some_iff.1 h).1

theorem drop_eq_cons {c : Char} (h : text[i]? = some c) :
    text.drop i = c :: text.drop (i + 1) := by
  obtain ⟨hlt, rfl⟩ := List.getElem?_eq_some_iff.1 h
  exact List.drop_eq_getElem_cons hlt

theorem drop_eq_nil (h : text[i]? = none) : text.drop i = [] :=
  List.drop_eq_nil_iff.2 (List.getElem?_eq_none_iff.1 h)

theorem length_sub_eq {c : Char} (h : text[i]? = some c) :
    text.length - ((text.drop (i + 1)).length + 1) = i := by
  have := lt_length_of_getElem? h
  rw [List.length_drop]
  omega

/-- **A step in plain text.** -/
theorem advances_plain (hi : i ≤ text.length) (b : Buffer) :
    Advances d text ⟨i, .plain b⟩ (stepPlain d text i b) := by
  fun_cases stepPlain d text i b with
  | case1 h =>
    refine ⟨.finished hi, ?_, Nat.succ_pos _⟩
    rw [outcome, outcome, drop_eq_nil h, Token.scan_nil, verdict]
  | case2 c h hblank =>
    have hlt := lt_length_of_getElem? h
    refine ⟨.plain hlt, ?_, by simp only [rank]; omega⟩
    rw [outcome, outcome, drop_eq_cons h, Token.scan_blank hblank]
    split <;> simp
  | case3 he h hblank =>
    have hlt := lt_length_of_getElem? h
    refine ⟨.finished hi, ?_, Nat.succ_pos _⟩
    have hlast : i = text.length - 1 := by
      have := List.getElem?_eq_none_iff.1 he
      omega
    rw [outcome, outcome, drop_eq_cons h, drop_eq_nil he, Token.scan_escape_nil, verdict, hlast]
  | case4 e he h hblank =>
    have hlt := lt_length_of_getElem? he
    refine ⟨.plain hlt, ?_, by simp only [rank]; omega⟩
    rw [outcome, outcome, drop_eq_cons h, drop_eq_cons he, Token.scan_escape]
  | case5 c h hblank hescape hquote =>
    have hlt := lt_length_of_getElem? h
    obtain ⟨rfl, hb⟩ := hquote
    refine ⟨.quoted hlt h, ?_, by simp only [rank]; omega⟩
    rw [outcome, outcome, drop_eq_cons h, Token.scan_quoted (by simpa using hblank) hescape hb]
    cases Quoted.read d.quote (text.drop (i + 1)) with
    | ok r => rw [quotedOutcome, verdict_thenScan]
    | error fault => cases fault <;> simp only [quotedOutcome, verdict, length_sub_eq h]
  | case6 c h hblank hescape hquote op rest hop =>
    -- the spelling stands in the text, so the cursor does not pass the end with it
    obtain ⟨-, hdrop⟩ := Dialect.eq_spelling_append_of_operatorAt? hop
    have hrest : rest = text.drop (i + (d.spelling op).length) := by
      rw [← List.drop_drop, hdrop, List.drop_left]
    have hlen := congrArg List.length hdrop
    have hlt := Dialect.length_rest_lt_of_operatorAt? hop
    rw [List.length_drop, List.length_append] at hlen
    rw [List.length_drop] at hlt
    refine ⟨.plain (by omega), ?_, by simp only [rank]; omega⟩
    rw [drop_eq_cons h] at hop
    rw [outcome, outcome, drop_eq_cons h,
      Token.scan_operator ⟨by simpa using hblank, hescape, hquote⟩ hop, verdict_thenScan, hrest]
  | case7 hop hb h hblank hescape hquote =>
    have hlt := lt_length_of_getElem? h
    refine ⟨.plain hlt, ?_, by simp only [rank]; omega⟩
    rw [drop_eq_cons h] at hop
    rw [outcome, outcome, drop_eq_cons h,
      Token.scan_opening ⟨by simpa using hblank, hescape, hquote⟩ hop, if_pos hb, verdict_thenScan]
  | case8 hop hb h hblank hescape hquote =>
    have hlt := lt_length_of_getElem? h
    refine ⟨.opens h hescape, ?_, by simp only [rank, if_pos]; omega⟩
    rw [drop_eq_cons h] at hop
    rw [outcome, outcome, drop_eq_cons h,
      Token.scan_opening ⟨by simpa using hblank, hescape, hquote⟩ hop, if_neg hb, if_pos rfl]
    cases CallBody.read d 0 (text.drop (i + 1)) with
    | some body => simp only [callOutcome, verdict_thenScan]
    | none => simp only [callOutcome, verdict, length_sub_eq h]
  | case9 hop h hblank hescape hquote hopening =>
    have hlt := lt_length_of_getElem? h
    refine ⟨.plain hlt, ?_, by simp only [rank]; omega⟩
    rw [drop_eq_cons h] at hop
    rw [outcome, outcome, drop_eq_cons h,
      Token.scan_closing ⟨by simpa using hblank, hescape, hquote⟩ hop hopening, verdict_thenScan]
  | case10 c h hblank hescape hquote hop hopening hclosing =>
    have hlt := lt_length_of_getElem? h
    refine ⟨.plain hlt, ?_, by simp only [rank]; omega⟩
    rw [drop_eq_cons h] at hop
    rw [outcome, outcome, drop_eq_cons h,
      Token.scan_text ⟨⟨by simpa using hblank, hescape, hquote⟩, hop, hopening, hclosing⟩]

/-- A character put in front of what was read between quotes does not change the answer. -/
@[simp] theorem quotedOutcome_keep (start : Nat) (c : Char) (r : Quoted.Outcome) :
    quotedOutcome d text start (Quoted.keep c r) = quotedOutcome d text start r := by
  cases r with
  | ok p => rfl
  | error fault => cases fault <;> rfl

/-- **A step between quotes.** -/
theorem advances_quoted (hi : i ≤ text.length) (hstart : text[start]? = some d.quote) :
    Advances d text ⟨i, .quoted start⟩ (stepQuoted d text i start) := by
  fun_cases stepQuoted d text i start with
  | case1 h =>
    refine ⟨.finished hi, ?_, Nat.succ_pos _⟩
    rw [outcome, outcome, drop_eq_nil h, Quoted.read, quotedOutcome]
    exact Fault.noConfusion
  | case2 he h =>
    have hlt := lt_length_of_getElem? h
    refine ⟨.finished hi, ?_, Nat.succ_pos _⟩
    have hlast : i = text.length - 1 := by
      have := List.getElem?_eq_none_iff.1 he
      omega
    rw [outcome, outcome, drop_eq_cons h, drop_eq_nil he, Quoted.read, if_pos rfl, quotedOutcome,
      hlast]
  | case3 e he h =>
    have hlt := lt_length_of_getElem? he
    refine ⟨.quoted hlt hstart, ?_, by simp only [rank]; omega⟩
    rw [outcome, outcome, drop_eq_cons h, drop_eq_cons he, Quoted.read, if_pos rfl,
      quotedOutcome_keep]
  | case4 h hescape =>
    have hlt := lt_length_of_getElem? h
    refine ⟨.plain hlt, ?_, by simp only [rank]; omega⟩
    rw [outcome, outcome, drop_eq_cons h, Quoted.read.eq_def]
    simp only [if_neg hescape, if_true, quotedOutcome]
  | case5 c h hescape hquote =>
    have hlt := lt_length_of_getElem? h
    refine ⟨.quoted hlt hstart, ?_, by simp only [rank]; omega⟩
    rw [outcome, outcome, drop_eq_cons h, Quoted.read.eq_def d.quote (c :: _)]
    simp only [if_neg hescape, if_neg hquote, quotedOutcome_keep]

/-- Text put in front of what was read in the parameters of a call does not change the answer. -/
theorem callOutcome_map (f : CallBody → CallBody) (hf : ∀ body, (f body).rest = body.rest)
    (start : Nat) (r : Option CallBody) :
    callOutcome d text start (r.map f) = callOutcome d text start r := by
  cases r with
  | none => rfl
  | some body => rw [Option.map_some, callOutcome, callOutcome, hf]

theorem outcome_inside {depth : Nat} (hlevel : level = depth + 1) :
    outcome d text ⟨i, .call start level⟩ =
      callOutcome d text start (CallBody.read d depth (text.drop i)) := by
  rw [outcome, if_neg (by omega), hlevel, Int.add_sub_cancel, Int.toNat_natCast]

theorem rank_inside {depth : Nat} (hlevel : level = depth + 1) :
    rank text ⟨i, .call start level⟩ = 2 * (text.length - i) + 1 := by
  rw [rank, if_neg (by omega)]

/-- **A step inside the parameters of a call.** -/
theorem advances_call (hi : i ≤ text.length) (hstart : text[start]? = some d.opening) {depth : Nat}
    (hlevel : level = depth + 1) :
    Advances d text ⟨i, .call start level⟩ (stepCall d text i start level) := by
  fun_cases stepCall d text i start level with
  | case1 h =>
    refine ⟨.finished hi, ?_, by rw [rank_inside hlevel]; exact Nat.succ_pos _⟩
    rw [outcome_inside hlevel, drop_eq_nil h]
    rfl
  | case2 he h =>
    refine ⟨.finished hi, ?_, by rw [rank_inside hlevel]; exact Nat.succ_pos _⟩
    rw [outcome_inside hlevel, drop_eq_cons h, drop_eq_nil he, CallBody.read.eq_def]
    rfl
  | case3 e he h =>
    have hlt := lt_length_of_getElem? he
    refine ⟨.inside hlt hstart hlevel, ?_, by rw [rank_inside hlevel, rank_inside hlevel]; omega⟩
    rw [outcome_inside hlevel, outcome_inside hlevel, drop_eq_cons h, drop_eq_cons he,
      CallBody.read_escape, callOutcome_map (CallBody.keepEscaped e) fun _ => rfl]
  | case4 h hescape =>
    have hlt := lt_length_of_getElem? h
    have hdeeper : level + 1 = (depth + 1 : Nat) + 1 := by omega
    refine ⟨.inside hlt hstart hdeeper, ?_, by rw [rank_inside hlevel, rank_inside hdeeper]; omega⟩
    rw [outcome_inside hlevel, outcome_inside hdeeper, drop_eq_cons h,
      CallBody.read_opening hescape, callOutcome_map (CallBody.keep d.opening) fun _ => rfl]
  | case5 hzero h hescape hopening =>
    have hlt := lt_length_of_getElem? h
    -- the outermost pair is closed
    obtain rfl : depth = 0 := by omega
    refine ⟨.plain hlt, ?_, by rw [rank_inside hlevel]; simp only [rank]; omega⟩
    rw [outcome_inside hlevel, drop_eq_cons h, CallBody.read.eq_def]
    simp only [if_neg hescape, if_neg hopening, if_true, callOutcome, outcome]
  | case6 hzero h hescape hopening =>
    have hlt := lt_length_of_getElem? h
    obtain ⟨k, rfl⟩ : ∃ k, depth = k + 1 := ⟨depth - 1, by omega⟩
    have hless : level - 1 = k + 1 := by omega
    refine ⟨.inside hlt hstart hless, ?_, by rw [rank_inside hlevel, rank_inside hless]; omega⟩
    rw [outcome_inside hlevel, outcome_inside hless, drop_eq_cons h,
      CallBody.read_closing_succ hescape hopening,
      callOutcome_map (CallBody.keep d.closing) fun _ => rfl]
  | case7 c h hescape hopening hclosing =>
    have hlt := lt_length_of_getElem? h
    refine ⟨.inside hlt hstart hlevel, ?_, by rw [rank_inside hlevel, rank_inside hlevel]; omega⟩
    rw [outcome_inside hlevel, outcome_inside hlevel, drop_eq_cons h,
      CallBody.read.eq_def d depth (c :: _)]
    simp only [if_neg hescape, if_neg hopening, if_neg hclosing]
    split
    · rw [callOutcome_map (CallBody.cut c) fun _ => rfl]
    · rw [callOutcome_map (CallBody.keep c) fun _ => rfl]

/-- **The step that reads the opening character of a call.** -/
theorem advances_opening (hstart : text[i]? = some d.opening) (hescape : d.opening ≠ escape) :
    Advances d text ⟨i, .call i 0⟩ (stepCall d text i i 0) := by
  have hlt := lt_length_of_getElem? hstart
  have hlevel : (0 : Int) + 1 = (0 : Nat) + 1 := rfl
  have hstep : stepCall d text i i 0 = ⟨i + 1, .call i (0 + 1)⟩ := by
    rw [stepCall, hstart]
    dsimp only
    rw [if_neg hescape, if_pos rfl]
  rw [hstep]
  refine ⟨.inside hlt hstart hlevel, ?_, ?_⟩
  · rw [outcome_inside hlevel, outcome, if_pos rfl]
  · rw [rank_inside hlevel, rank, if_pos rfl]
    omega

/-- **A step of a cursor that has not finished.** -/
theorem Sound.advances {c : Cursor} (h : Sound d text c) (hc : ∀ answer, c.phase ≠ .finished answer) :
    Advances d text c (c.step d text) := by
  cases h with
  | plain hi => exact advances_plain hi _
  | quoted hi hstart => exact advances_quoted hi hstart
  | opens hstart hescape => exact advances_opening hstart hescape
  | inside hi hstart hlevel => exact advances_call hi hstart hlevel
  | finished hi => exact absurd rfl (hc _)

/-! ## Runs -/

theorem Sound.position_le {c : Cursor} (h : Sound d text c) : c.position ≤ text.length := by
  cases h with
  | opens hstart _ => exact (lt_length_of_getElem? hstart).le
  | _ => assumption

theorem Sound.level_nonneg (h : Sound d text ⟨i, .call start level⟩) : 0 ≤ level := by
  cases h with
  | opens _ _ => exact Int.le_refl 0
  | inside _ _ hlevel => omega

theorem step_of_finished {c : Cursor} {answer : Except ScanError Unit}
    (h : c.phase = .finished answer) : c.step d text = c := by
  obtain ⟨i, phase⟩ := c
  subst h
  rfl

theorem outcome_of_finished {c : Cursor} {answer : Except ScanError Unit}
    (h : c.phase = .finished answer) : c.outcome d text = answer := by
  obtain ⟨i, phase⟩ := c
  subst h
  rfl

/-- **What is known of a cursor is known after every step**, and so is what the scanner answers. -/
theorem sound_run (d : Dialect) (text : List Char) (steps : Nat) :
    Sound d text (run d text steps) ∧
      (run d text steps).outcome d text = verdict text (Token.scan d .empty text) := by
  induction steps with
  | zero => exact ⟨.plain (Nat.zero_le _), rfl⟩
  | succ steps ih =>
    obtain ⟨hsound, houtcome⟩ := ih
    rw [run_succ]
    by_cases hfinished : ∃ answer, (run d text steps).phase = .finished answer
    · obtain ⟨answer, hphase⟩ := hfinished
      rw [step_of_finished hphase]
      exact ⟨hsound, houtcome⟩
    · have h := hsound.advances (not_exists.1 hfinished)
      exact ⟨h.sound, h.outcome_eq.trans houtcome⟩

/-- **A run comes to its end.** -/
theorem exists_finished (d : Dialect) (text : List Char) :
    ∃ steps ≤ 2 * text.length + 1, ∃ answer, (run d text steps).phase = .finished answer := by
  by_contra hnever
  push Not at hnever
  -- every step lowers the rank, which cannot be lowered more often than this
  have hrank : ∀ steps ≤ 2 * text.length + 2,
      (run d text steps).rank text + steps ≤ 2 * text.length + 1 := by
    intro steps
    induction steps with
    | zero =>
      intro _
      simp [run, initial, rank]
    | succ steps ih =>
      intro hle
      have hadvances := (sound_run d text steps).1.advances (hnever steps (by omega))
      have := hadvances.rank_lt
      have := ih (by omega)
      rw [run_succ]
      omega
  have := hrank (2 * text.length + 2) le_rfl
  omega

theorem verdict_scan (d : Dialect) (s : String) :
    verdict s.toList (Token.scan d .empty s.toList) = (Token.ofText d s).map fun _ => () := by
  rw [Token.ofText]
  cases Token.scan d .empty s.toList with
  | ok ts => rfl
  | error e => rw [verdict, String.length_toList]; rfl

/-- An error of the scanner is at the sign that it is about, counted from the start. -/
theorem sign_at_position {s : String} {e : ScanError} (h : Token.ofText d s = .error e) :
    s.toList[e.position]? = some (e.fault.sign d) ∧
      (e.fault = .danglingEscape → e.position = s.length - 1) := by
  obtain ⟨e', hscan, rfl⟩ := Token.ofText_eq_error_iff.1 h
  obtain ⟨front, back, htext, hplace, hback⟩ := Token.pointsInto_of_scan hscan
  have hposition : s.length - e'.position = front.length := by
    rw [← String.length_toList, htext, hplace, List.length_append, List.length_cons]
    omega
  refine ⟨?_, fun hfault => by rw [hplace, hback hfault]; rfl⟩
  rw [hposition, htext, List.getElem?_append_right le_rfl, Nat.sub_self, List.getElem?_cons_zero]

/-- **A cursor on a text is safe, in every dialect.** It never passes the end of the text, and the count
of open pairs never drops below zero. After at most two steps for each character and one more it has
finished, with the answer of the scanner. If the text is refused, the error is at a character of the
text: the opening character of a call, the opening quote of a literal, or an escape character that is
the last one. -/
theorem run_is_safe (d : Dialect) (s : String) :
    (∀ steps, (run d s.toList steps).position ≤ s.length ∧
      ∀ start level, (run d s.toList steps).phase = .call start level → 0 ≤ level) ∧
    (∃ steps ≤ 2 * s.length + 1,
      (run d s.toList steps).phase = .finished ((Token.ofText d s).map fun _ => ())) ∧
    ∀ e, Token.ofText d s = .error e →
      e.position < s.length ∧ s.toList[e.position]? = some (e.fault.sign d) ∧
        (e.fault = .danglingEscape → e.position = s.length - 1) := by
  have hlength : s.toList.length = s.length := String.length_toList
  refine ⟨fun steps => ?_, ?_, fun e he => ?_⟩
  · obtain ⟨hsound, -⟩ := sound_run d s.toList steps
    refine ⟨hlength ▸ hsound.position_le, fun start level hphase => ?_⟩
    generalize run d s.toList steps = c at hsound hphase
    obtain ⟨i, phase⟩ := c
    obtain rfl : phase = .call start level := hphase
    exact hsound.level_nonneg
  · obtain ⟨steps, hsteps, answer, hphase⟩ := exists_finished d s.toList
    obtain ⟨-, houtcome⟩ := sound_run d s.toList steps
    refine ⟨steps, hlength ▸ hsteps, ?_⟩
    rw [outcome_of_finished hphase, verdict_scan] at houtcome
    rw [hphase, houtcome]
  · obtain ⟨hsign, hlast⟩ := sign_at_position he
    exact ⟨hlength ▸ lt_length_of_getElem? hsign, hsign, hlast⟩

/-- Where one character opens and closes, no call is closed: the second one opens a pair inside the
first. The error is at the first. -/
theorem run_is_safe_one_container : ∃ d : Dialect, d.opening = d.closing ∧ ∃ steps ≤ 9,
    (run d "f|x|".toList steps).phase = .finished (.error ⟨.unterminatedContainer, 1⟩) ∧
    (1 : Nat) < "f|x|".length ∧ "f|x|".toList[1]? = some d.opening := by
  have hscan : Token.ofText { opening := '|', closing := '|' } "f|x|" =
      .error ⟨.unterminatedContainer, 1⟩ := by cbv
  obtain ⟨-, ⟨steps, hsteps, hphase⟩, herror⟩ :=
    run_is_safe { opening := '|', closing := '|' } "f|x|"
  rw [hscan] at hphase
  obtain ⟨hlt, hsign, -⟩ := herror _ hscan
  exact ⟨_, rfl, steps, hsteps, hphase, hlt, hsign⟩

end Cursor

end PositiveLogic
