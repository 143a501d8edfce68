import PositiveLogic.Proofs.Calls
import PositiveLogic.Proofs.Composition

/-!
# Scanning loses and invents nothing

In a text without the escape character and the quote every character is taken as it stands. Each of
them but blanks is then found again in the tokens, once and in order, and no sign is taken for a part
of a literal.

* `Dialect.surface`: the text of a token as it stands in a formula.
* `Token.Move.dropBlanks_surface`: a move accounts for the characters that it reads.
* `Token.Passed`: no sign starts in the literal that has begun. Every move keeps this
  (`Token.Move.passed`), so no sign stands in a literal that ends (`Token.Passed.signFree`).
* `Token.ofText_surface`: what this says of a whole text, and that such a text has one kind of error.
-/

namespace PositiveLogic

namespace Text

/-- A text without its blanks. -/
def dropBlanks (cs : List Char) : List Char := cs.filter fun c => !isBlank c

@[simp] theorem dropBlanks_append (cs ds : List Char) :
    dropBlanks (cs ++ ds) = dropBlanks cs ++ dropBlanks ds :=
  List.filter_append ..

theorem dropBlanks_eq_nil {cs : List Char} (h : ∀ c ∈ cs, isBlank c = true) : dropBlanks cs = [] :=
  List.filter_eq_nil_iff.2 fun c hc => by simp [h c hc]

theorem dropBlanks_cons_of_blank {c : Char} (hc : isBlank c = true) (cs : List Char) :
    dropBlanks (c :: cs) = dropBlanks cs :=
  List.filter_cons_of_neg (by simp [hc])

end Text

namespace Buffer

theorem dropBlanks_text (b : Buffer) : Text.dropBlanks b.text = Text.dropBlanks b.chars := by
  obtain ⟨front, back, hchars, hblank⟩ := b.exists_append_text
  have hfront := Text.dropBlanks_eq_nil fun c hc => hblank c (List.mem_append_left back hc)
  have hback := Text.dropBlanks_eq_nil fun c hc => hblank c (List.mem_append_right front hc)
  rw [hchars, Text.dropBlanks_append, Text.dropBlanks_append, hfront, hback, List.nil_append,
    List.append_nil]

end Buffer

namespace Dialect

variable {d : Dialect} {b : Buffer} {cs : List Char}

/-! ## The text of a token -/

/-- The text of a token as it stands in a formula: modifiers and value of a literal, the spelling of
an operator, the end of a group. -/
def surface (d : Dialect) : Token Atom → List Char
  | .literal a => a.modifiers ++ a.value.toList
  | .and => d.andOp.toList
  | .or => d.orOp.toList
  | .opening => [d.opening]
  | .closing => [d.closing]

theorem surface_plain (d : Dialect) (text : List Char) :
    d.surface (.literal (d.plain text)) = text := by
  rw [surface, plain, String.toList_ofList]
  exact List.takeWhile_append_dropWhile

theorem surface_call (d : Dialect) (head : List Char) (body : CallBody) :
    d.surface (.literal (d.call head body)) = head ++ d.opening :: body.raw :=
  d.spellAtom_call head body

theorem surface_operator {op : Token Atom} (h : op.isOperator = true) :
    d.surface op = d.spelling op := by
  cases op with
  | and => rfl
  | or => rfl
  | _ => cases h

/-- The literal that ends has all characters of the buffer but blanks. -/
theorem dropBlanks_flush (d : Dialect) (b : Buffer) :
    Text.dropBlanks ((d.flush b).flatMap d.surface) = Text.dropBlanks b.chars := by
  rw [← b.dropBlanks_text]
  by_cases htext : b.text = []
  · rw [d.flush_of_text_eq_nil htext, htext]
    rfl
  · rw [d.flush_of_text_ne_nil htext, List.flatMap_singleton, surface_plain]

/-- A text without the escape character and the quote, so that nothing in it is escaped or
quoted. -/
structure Bare (d : Dialect) (cs : List Char) : Prop where
  escape_not_mem : escape ∉ cs
  quote_not_mem : d.quote ∉ cs

theorem Bare.of_suffix {rest : List Char} (h : d.Bare cs) (hsuffix : rest <:+ cs) : d.Bare rest :=
  ⟨fun hmem => h.escape_not_mem (hsuffix.subset hmem),
    fun hmem => h.quote_not_mem (hsuffix.subset hmem)⟩

end Dialect

namespace Token

open Text (dropBlanks dropBlanks_append dropBlanks_cons_of_blank)

variable {d : Dialect} {b b' : Buffer} {c : Char} {cs cs' : List Char} {out ts : List (Token Atom)}

/-! ## Every character is accounted for -/

/-- A move accounts for the characters that it reads: those it gives tokens for, and those it adds
to the literal. -/
theorem Move.dropBlanks_surface (h : Move d b cs out b' cs') (hbare : d.Bare cs) :
    dropBlanks (b.chars ++ cs) = dropBlanks (out.flatMap d.surface ++ b'.chars ++ cs') := by
  cases h with
  | blank_ends hc _ =>
    simp [d.dropBlanks_flush, dropBlanks_cons_of_blank hc]
  | blank_kept _ _ => simp
  | escaped => exact absurd List.mem_cons_self hbare.escape_not_mem
  | quoted _ _ _ _ => exact absurd List.mem_cons_self hbare.quote_not_mem
  | operator _ hop =>
    obtain ⟨hop, hcs⟩ := Dialect.eq_spelling_append_of_operatorAt? hop
    rw [hcs]
    simp [d.dropBlanks_flush, Dialect.surface_operator hop]
  | group _ _ hb =>
    have hvacant : dropBlanks b.chars = [] := by
      rw [← b.dropBlanks_text, b.text_eq_nil_iff.2 hb]
      rfl
    simp [hvacant, Dialect.surface]
  | call _ _ _ hread =>
    rw [(CallBody.read_raw hread).1, List.flatMap_singleton, Dialect.surface_call,
      ← List.cons_append]
    simp only [dropBlanks_append, b.dropBlanks_text, Buffer.chars_empty, List.append_assoc,
      List.nil_append]
  | closing _ _ _ => simp [d.dropBlanks_flush, Dialect.surface]
  | text hc => simp

/-! ## No sign is passed over -/

/-- A character at which no sign starts, in front of `cs`: a blank, or a character that starts no
operator and is no end of a group. -/
def NoSign (d : Dialect) (c : Char) (cs : List Char) : Prop :=
  Text.isBlank c = true ∨ d.operatorAt? (c :: cs) = none ∧ c ≠ d.opening ∧ c ≠ d.closing

/-- No sign starts in the literal that has begun in front of `cs`. -/
def Passed (d : Dialect) (b : Buffer) (cs : List Char) : Prop :=
  ∀ c back, c :: back <:+ b.chars → NoSign d c (back ++ cs)

theorem passed_empty (d : Dialect) (cs : List Char) : Passed d .empty cs := by
  intro c back hsuffix
  cases List.suffix_nil.1 hsuffix

theorem Passed.push (h : Passed d b (c :: cs)) (hc : NoSign d c cs) : Passed d (b.push c) cs := by
  intro x back hsuffix
  rw [Buffer.chars_push, List.suffix_concat_iff] at hsuffix
  obtain hnil | ⟨front, heq, hsuffix⟩ := hsuffix
  · cases hnil
  cases front with
  | nil =>
    obtain ⟨rfl, rfl⟩ := List.cons.inj heq
    exact hc
  | cons y front =>
    rw [List.cons_append] at heq
    obtain ⟨rfl, rfl⟩ := List.cons.inj heq
    rw [List.append_assoc]
    exact h x front hsuffix

/-- A text in which no sign is passed over: it is not empty, and it holds no end of a group and no
operator, but for signs that start with a blank. -/
structure SignFree (d : Dialect) (text : List Char) : Prop where
  ne_nil : text ≠ []
  no_end : ∀ c ∈ text, Text.isBlank c = false → c ≠ d.opening ∧ c ≠ d.closing
  no_operator : ∀ op, op = d.andOp ∨ op = d.orOp → op.toList ≠ [] →
    (∀ c, op.toList.head? = some c → Text.isBlank c = false) → ¬ op.toList <:+: text

theorem Passed.signFree (h : Passed d b cs) (hne : b.text ≠ []) : SignFree d b.text := by
  obtain ⟨front, back, hchars, -⟩ := b.exists_append_text
  -- no sign starts at a character of the text either
  have hpassed : ∀ xs c ys, b.text = xs ++ c :: ys → NoSign d c (ys ++ (back ++ cs)) := by
    intro xs c ys htext
    rw [← List.append_assoc]
    refine h c (ys ++ back) ⟨front ++ xs, ?_⟩
    simp [hchars, htext]
  refine ⟨hne, fun c hc hblank => ?_, fun op hop hopne hhead => ?_⟩
  · obtain ⟨xs, ys, htext⟩ := List.append_of_mem hc
    rcases hpassed xs c ys htext with hc | hc
    · rw [hc] at hblank
      cases hblank
    · exact hc.2
  · refine not_infix_of_not_prefix (back ++ cs) hopne hhead fun xs c ys htext =>
      (hpassed xs c ys htext).imp_right fun hc => ?_
    exact Dialect.not_prefix_of_operatorAt?_eq_none hc.1 hop hopne

theorem Move.passed (h : Move d b cs out b' cs') (hbare : d.Bare cs) (hpassed : Passed d b cs) :
    Passed d b' cs' := by
  cases h with
  | blank_kept hc _ => exact hpassed.push (.inl hc)
  | text hc => exact hpassed.push (.inr hc.2)
  | escaped => exact absurd List.mem_cons_self hbare.escape_not_mem
  | _ => exact passed_empty d _

theorem Move.signFree {a : Atom} (h : Move d b cs out b' cs') (hbare : d.Bare cs)
    (hpassed : Passed d b cs) (ha : .literal a ∈ out) (hcall : a.call = none) :
    SignFree d (d.surface (.literal a)) := by
  obtain ⟨hne, rfl⟩ | ⟨text, rest, rfl, -, -⟩ | ⟨body, rest, -, -, -, rfl⟩ := h.literal_cases ha
  · rw [Dialect.surface_plain]
    exact hpassed.signFree hne
  · exact absurd List.mem_cons_self hbare.quote_not_mem
  · cases hcall

/-! ## Whole texts -/

/-- **A reading accounts for all characters of a bare text but blanks**, each once and in order. -/
theorem Scans.dropBlanks_surface (h : Scans d b cs ts) (hbare : d.Bare cs) :
    dropBlanks (ts.flatMap d.surface) = dropBlanks (b.chars ++ cs) := by
  induction h with
  | @done b => rw [d.dropBlanks_flush, List.append_nil]
  | move hmove _ ih =>
    rw [hmove.dropBlanks_surface hbare, List.flatMap_append, dropBlanks_append,
      ih (hbare.of_suffix hmove.rest_suffix), ← dropBlanks_append, List.append_assoc]

/-- **No plain literal of a reading of a bare text passes over a sign.** -/
theorem Scans.signFree {a : Atom} (h : Scans d b cs ts) (hbare : d.Bare cs)
    (hpassed : Passed d b cs) (ha : .literal a ∈ ts) (hcall : a.call = none) :
    SignFree d (d.surface (.literal a)) := by
  induction h with
  | done =>
    obtain ⟨hne, rfl⟩ := Dialect.mem_flush_iff.1 ha
    rw [Dialect.surface_plain]
    exact hpassed.signFree hne
  | move hmove _ ih =>
    rcases List.mem_append.1 ha with ha | ha
    · exact hmove.signFree hbare hpassed ha hcall
    · exact ih (hbare.of_suffix hmove.rest_suffix) (hmove.passed hbare hpassed) ha

/-- **Scanning loses and invents nothing.** In a text without the escape character and the quote, the
tokens are the characters that are no blanks, in order; no literal but a call holds a sign that would
have ended it; and the only error is a call whose parameters are not closed. -/
theorem ofText_surface {s : String} (hescape : escape ∉ s.toList) (hquote : d.quote ∉ s.toList) :
    (∀ ts, ofText d s = .ok ts →
      dropBlanks (ts.flatMap d.surface) = dropBlanks s.toList ∧
      ∀ a, .literal a ∈ ts → a.call = none → SignFree d (d.surface (.literal a))) ∧
    ∀ e, ofText d s = .error e → e.fault = .unterminatedContainer := by
  have hbare : d.Bare s.toList := ⟨hescape, hquote⟩
  refine ⟨fun ts hts => ?_, fun e he => ?_⟩
  · have hscans := scan_eq_ok_iff_scans.1 (ofText_eq_ok_iff.1 hts)
    exact ⟨hscans.dropBlanks_surface hbare,
      fun a ha hcall => hscans.signFree hbare (passed_empty d _) ha hcall⟩
  · obtain ⟨e', hscan, rfl⟩ := ofText_eq_error_iff.1 he
    have hmem := (pointsInto_of_scan hscan).sign_mem
    obtain ⟨fault, position⟩ := e'
    cases fault with
    | unterminatedContainer => rfl
    | unterminatedQuote => exact absurd hmem hquote
    | danglingEscape => exact absurd hmem hescape

/-- A modified literal with a blank inside, a call, an operator that starts like the other one, and
the opening character of a call that is not closed. -/
theorem ofText_surface_call : ∃ d : Dialect, ∃ ts,
    d = { andOp := "&", orOp := "&&", modifiers := .ofList ['!'], splitOnBlank := false } ∧
    ofText d " !a b &f( x ,(y)) && (c" = .ok ts ∧
    dropBlanks (ts.flatMap d.surface) = "!ab&f(x,(y))&&(c".toList ∧
    SignFree d (d.surface (.literal ⟨['!'], "a b", none⟩)) ∧
    ∃ e, ofText d "a & b (c" = .error e ∧ e.fault = .unterminatedContainer := by
  have hts : ofText { andOp := "&", orOp := "&&", modifiers := .ofList ['!'], splitOnBlank := false }
      " !a b &f( x ,(y)) && (c" = .ok [.literal ⟨['!'], "a b", none⟩, .and,
        .literal ⟨[], "f( x ,(y))", some ⟨"f", ["x", "(y)"]⟩⟩, .or, .opening,
        .literal ⟨[], "c", none⟩] := by cbv
  have he : ofText { andOp := "&", orOp := "&&", modifiers := .ofList ['!'], splitOnBlank := false }
      "a & b (c" = .error ⟨.unterminatedContainer, 6⟩ := by cbv
  obtain ⟨hsurface, hfree⟩ := (ofText_surface (by decide) (by decide)).1 _ hts
  have hfault := (ofText_surface (by decide) (by decide)).2 _ he
  exact ⟨_, _, rfl, hts, hsurface.trans (by decide), hfree _ List.mem_cons_self rfl, _, he, hfault⟩

end Token

end PositiveLogic
