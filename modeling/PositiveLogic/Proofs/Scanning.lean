import PositiveLogic.Proofs.Buffers
import PositiveLogic.Proofs.Operators
import PositiveLogic.Proofs.Spans
import PositiveLogic.Token.Scan

/-!
# The moves of the scanner

`Token.scan` reads a text piece by piece. `Token.Move d b cs out b' cs'` is the reading of one
piece: with the literal `b` begun, it takes `cs` to the rest `cs'`, gives the tokens `out` and
leaves the literal `b'` begun. A text is read without an error exactly if moves lead to its end
(`scan_eq_ok_iff_scans`), so what every move keeps, every reading keeps.

* `scan_append`: a text that is read without an error is read so in front of a suffix that no
  operator reaches into, and its last literal ends where the suffix ends it.
* `scan_congr`: blanks in front of a literal have no effect.
-/

namespace PositiveLogic

namespace Dialect

/-! ## The literal that ends -/

theorem flush_of_text_eq_nil (d : Dialect) {b : Buffer} (h : b.text = []) : d.flush b = [] := by
  unfold flush
  rw [h]

theorem flush_of_text_ne_nil (d : Dialect) {b : Buffer} (h : b.text ≠ []) :
    d.flush b = [.literal (d.plain b.text)] := by
  unfold flush
  split
  · next hnil => exact absurd hnil h
  · rfl

theorem flush_congr (d : Dialect) {b b' : Buffer} (h : b.text = b'.text) :
    d.flush b = d.flush b' := by
  unfold flush
  rw [h]

theorem mem_flush_iff {d : Dialect} {b : Buffer} {a : Atom} :
    .literal a ∈ d.flush b ↔ b.text ≠ [] ∧ a = d.plain b.text := by
  by_cases htext : b.text = []
  · simp [d.flush_of_text_eq_nil htext, htext]
  · simp [d.flush_of_text_ne_nil htext, htext]

end Dialect

namespace Token

variable {d : Dialect} {b b' : Buffer} {c : Char} {cs cs' : List Char} {out ts : List (Token Atom)}

/-! ## Tokens in front of the others -/

@[simp] theorem thenScan_nil (r : Except ScanError (List (Token Atom))) : thenScan [] r = r := by
  cases r <;> rfl

theorem thenScan_thenScan (ts us : List (Token Atom)) (r : Except ScanError (List (Token Atom))) :
    thenScan ts (thenScan us r) = thenScan (ts ++ us) r := by
  cases r with
  | ok vs => simp [thenScan]
  | error e => rfl

theorem thenScan_eq_ok_iff {r : Except ScanError (List (Token Atom))} :
    thenScan out r = .ok ts ↔ ∃ us, r = .ok us ∧ ts = out ++ us := by
  cases r with
  | ok vs => simp [thenScan, eq_comm]
  | error e => simp [thenScan]

theorem thenScan_eq_error_iff {r : Except ScanError (List (Token Atom))} {e : ScanError} :
    thenScan out r = .error e ↔ r = .error e := by
  cases r <;> simp [thenScan]

/-! ## One step -/

/-- A character in front of which the tests for a blank, for the escape character and for a quoted
literal have failed. -/
structure IsSignOrText (d : Dialect) (b : Buffer) (c : Char) : Prop where
  not_blank : Text.isBlank c = false
  ne_escape : c ≠ escape
  not_quote : ¬ (c = d.quote ∧ b.isVacant = true)

/-- A character that belongs to the literal that has begun, in front of `cs`. -/
def IsText (d : Dialect) (b : Buffer) (c : Char) (cs : List Char) : Prop :=
  IsSignOrText d b c ∧ d.operatorAt? (c :: cs) = none ∧ c ≠ d.opening ∧ c ≠ d.closing

theorem scan_nil : scan d b [] = .ok (d.flush b) := by
  rw [scan.eq_def]

theorem scan_blank (hc : Text.isBlank c = true) :
    scan d b (c :: cs) = if d.splitOnBlank then thenScan (d.flush b) (scan d .empty cs)
      else scan d (b.push c) cs := by
  rw [scan.eq_def]
  simp only [hc, if_true]

theorem scan_escape_nil : scan d b [escape] = .error ⟨.danglingEscape, 1⟩ := by
  rw [scan.eq_def]
  simp only [escape_not_blank, Bool.false_eq_true, if_false, if_true]

theorem scan_escape (e : Char) : scan d b (escape :: e :: cs) = scan d (b.pushEscaped e) cs := by
  rw [scan.eq_def]
  simp only [escape_not_blank, Bool.false_eq_true, if_false, if_true]

theorem scan_quoted (hblank : Text.isBlank d.quote = false) (hescape : d.quote ≠ escape)
    (hb : b.isVacant = true) :
    scan d b (d.quote :: cs) = match Quoted.read d.quote cs with
      | .ok (text, rest) =>
        thenScan [.literal ⟨[], String.ofList text, none⟩] (scan d .empty rest)
      | .error .danglingEscape => .error ⟨.danglingEscape, 1⟩
      | .error fault => .error ⟨fault, cs.length + 1⟩ := by
  rw [scan.eq_def]
  simp only [hblank, Bool.false_eq_true, if_false, if_neg hescape, hb, and_self, if_true]
  split <;> simp_all

theorem scan_operator (hc : IsSignOrText d b c) {op : Token Atom} {rest : List Char}
    (hop : d.operatorAt? (c :: cs) = some (op, rest)) :
    scan d b (c :: cs) = thenScan (d.flush b ++ [op]) (scan d .empty rest) := by
  rw [scan.eq_def]
  simp only [hc.not_blank, Bool.false_eq_true, if_false, if_neg hc.ne_escape, if_neg hc.not_quote]
  split
  · next op' rest' h =>
    obtain ⟨rfl, rfl⟩ := Prod.mk.inj (Option.some.inj (hop.symm.trans h))
    rfl
  · next h =>
    rw [hop] at h
    cases h

theorem scan_opening (hc : IsSignOrText d b d.opening)
    (hop : d.operatorAt? (d.opening :: cs) = none) :
    scan d b (d.opening :: cs) = if b.isVacant then thenScan [.opening] (scan d .empty cs)
      else match CallBody.read d 0 cs with
        | some body => thenScan [.literal (d.call b.text body)] (scan d .empty body.rest)
        | none => .error ⟨.unterminatedContainer, cs.length + 1⟩ := by
  rw [scan.eq_def]
  simp only [hc.not_blank, Bool.false_eq_true, if_false, if_neg hc.ne_escape, if_neg hc.not_quote]
  split
  · next h =>
    rw [hop] at h
    cases h
  · simp only [if_true]
    split
    · rfl
    · split <;> simp_all

theorem scan_closing (hc : IsSignOrText d b d.closing)
    (hop : d.operatorAt? (d.closing :: cs) = none) (hne : d.closing ≠ d.opening) :
    scan d b (d.closing :: cs) = thenScan (d.flush b ++ [.closing]) (scan d .empty cs) := by
  rw [scan.eq_def]
  simp only [hc.not_blank, Bool.false_eq_true, if_false, if_neg hc.ne_escape, if_neg hc.not_quote]
  split
  · next h =>
    rw [hop] at h
    cases h
  · simp only [if_neg hne, if_true]

theorem scan_text (hc : IsText d b c cs) : scan d b (c :: cs) = scan d (b.push c) cs := by
  obtain ⟨hc, hop, hopen, hclose⟩ := hc
  rw [scan.eq_def]
  simp only [hc.not_blank, Bool.false_eq_true, if_false, if_neg hc.ne_escape, if_neg hc.not_quote]
  split
  · next h =>
    rw [hop] at h
    cases h
  · simp only [if_neg hopen, if_neg hclose]

/-! ## Moves -/

/-- The reading of one piece of a text. -/
inductive Move (d : Dialect) :
    Buffer → List Char → List (Token Atom) → Buffer → List Char → Prop
  /-- A blank ends the literal. -/
  | blank_ends {b : Buffer} {c : Char} {cs : List Char} (hc : Text.isBlank c = true)
      (hs : d.splitOnBlank = true) : Move d b (c :: cs) (d.flush b) .empty cs
  /-- A blank is kept. -/
  | blank_kept {b : Buffer} {c : Char} {cs : List Char} (hc : Text.isBlank c = true)
      (hs : d.splitOnBlank = false) : Move d b (c :: cs) [] (b.push c) cs
  /-- A character is escaped. -/
  | escaped {b : Buffer} {e : Char} {cs : List Char} :
      Move d b (escape :: e :: cs) [] (b.pushEscaped e) cs
  /-- A quoted literal. -/
  | quoted {b : Buffer} {cs text rest : List Char} (hblank : Text.isBlank d.quote = false)
      (hescape : d.quote ≠ escape) (hb : b.isVacant = true)
      (hread : Quoted.read d.quote cs = .ok (text, rest)) :
      Move d b (d.quote :: cs) [.literal ⟨[], String.ofList text, none⟩] .empty rest
  /-- An operator. -/
  | operator {b : Buffer} {c : Char} {cs rest : List Char} {op : Token Atom}
      (hc : IsSignOrText d b c) (hop : d.operatorAt? (c :: cs) = some (op, rest)) :
      Move d b (c :: cs) (d.flush b ++ [op]) .empty rest
  /-- The opening character of a group. -/
  | group {b : Buffer} {cs : List Char} (hc : IsSignOrText d b d.opening)
      (hop : d.operatorAt? (d.opening :: cs) = none) (hb : b.isVacant = true) :
      Move d b (d.opening :: cs) [.opening] .empty cs
  /-- The opening character and the parameters of a call. -/
  | call {b : Buffer} {cs : List Char} {body : CallBody} (hc : IsSignOrText d b d.opening)
      (hop : d.operatorAt? (d.opening :: cs) = none) (hb : b.isVacant = false)
      (hread : CallBody.read d 0 cs = some body) :
      Move d b (d.opening :: cs) [.literal (d.call b.text body)] .empty body.rest
  /-- The closing character of a group. -/
  | closing {b : Buffer} {cs : List Char} (hc : IsSignOrText d b d.closing)
      (hop : d.operatorAt? (d.closing :: cs) = none) (hne : d.closing ≠ d.opening) :
      Move d b (d.closing :: cs) (d.flush b ++ [.closing]) .empty cs
  /-- Any other character. -/
  | text {b : Buffer} {c : Char} {cs : List Char} (hc : IsText d b c cs) :
      Move d b (c :: cs) [] (b.push c) cs

theorem isLiteral_of_isOperator {t : Token Atom} (h : t.isOperator = true) :
    t.isLiteral = false := by
  cases t with
  | literal a => cases h
  | _ => rfl

/-- A move is what the scanner does first. -/
theorem scan_of_move (h : Move d b cs out b' cs') : scan d b cs = thenScan out (scan d b' cs') := by
  cases h with
  | blank_ends hc hs => rw [scan_blank hc, if_pos hs]
  | blank_kept hc hs => rw [scan_blank hc, if_neg (by simp [hs]), thenScan_nil]
  | escaped => rw [scan_escape, thenScan_nil]
  | quoted hblank hescape hb hread => rw [scan_quoted hblank hescape hb, hread]
  | operator hc hop => rw [scan_operator hc hop]
  | group hc hop hb => rw [scan_opening hc hop, if_pos hb]
  | call hc hop hb hread => rw [scan_opening hc hop, if_neg (by simp [hb]), hread]
  | closing hc hop hne => rw [scan_closing hc hop hne]
  | text hc => rw [scan_text hc, thenScan_nil]

/-- **The literals that a move gives**: the plain one that ends, a quoted one or a call. -/
theorem Move.literal_cases {a : Atom} (h : Move d b cs out b' cs') (ha : .literal a ∈ out) :
    (b.text ≠ [] ∧ a = d.plain b.text) ∨
    (∃ text rest, cs = d.quote :: rest ∧ Quoted.read d.quote rest = .ok (text, cs') ∧
      a = ⟨[], String.ofList text, none⟩) ∨
    ∃ body rest, cs = d.opening :: rest ∧ CallBody.read d 0 rest = some body ∧ b.text ≠ [] ∧
      a = d.call b.text body := by
  have hsnoc : ∀ {t : Token Atom}, t.isLiteral = false → .literal a ∈ d.flush b ++ [t] →
      b.text ≠ [] ∧ a = d.plain b.text := by
    intro t ht ha
    rcases List.mem_append.1 ha with ha | ha
    · exact Dialect.mem_flush_iff.1 ha
    · rw [← List.mem_singleton.1 ha] at ht
      cases ht
  cases h with
  | blank_ends _ _ => exact .inl (Dialect.mem_flush_iff.1 ha)
  | quoted _ _ _ hread =>
    cases List.mem_singleton.1 ha
    exact .inr (.inl ⟨_, _, rfl, hread, rfl⟩)
  | operator _ hop =>
    exact .inl (hsnoc (isLiteral_of_isOperator (Dialect.isOperator_of_operatorAt? hop)) ha)
  | group _ _ _ => cases List.mem_singleton.1 ha
  | call _ _ hb hread =>
    cases List.mem_singleton.1 ha
    have htext : b.text ≠ [] := fun hnil => by
      rw [b.text_eq_nil_iff, hb] at hnil
      cases hnil
    exact .inr (.inr ⟨_, _, rfl, hread, htext, rfl⟩)
  | closing _ _ _ => exact .inl (hsnoc rfl ha)
  | _ => cases ha

theorem Move.rest_suffix (h : Move d b cs out b' cs') : cs' <:+ cs := by
  cases h with
  | escaped => exact List.suffix_append [escape, _] cs'
  | quoted _ _ _ hread => exact (Quoted.rest_suffix hread).trans (List.suffix_cons _ _)
  | operator _ hop => exact Dialect.suffix_of_operatorAt? hop
  | call _ _ _ hread => exact (CallBody.rest_suffix hread).trans (List.suffix_cons _ _)
  | _ => exact List.suffix_cons _ cs'

/-- Moves that lead to the end of a text, and the tokens they give. -/
inductive Scans (d : Dialect) : Buffer → List Char → List (Token Atom) → Prop
  | done {b : Buffer} : Scans d b [] (d.flush b)
  | move {b b' : Buffer} {cs cs' : List Char} {out ts : List (Token Atom)} :
      Move d b cs out b' cs' → Scans d b' cs' ts → Scans d b cs (out ++ ts)

/-- **A text is read without an error exactly if moves lead to its end.** -/
theorem scan_eq_ok_iff_scans : scan d b cs = .ok ts ↔ Scans d b cs ts := by
  constructor
  · intro h
    -- a step of the scanner is a move, so the rest of the text has moves to its end
    have then_move : ∀ {b b' : Buffer} {cs cs' : List Char} {out ts : List (Token Atom)},
        Move d b cs out b' cs' → thenScan out (scan d b' cs') = .ok ts →
        (∀ ts, scan d b' cs' = .ok ts → Scans d b' cs' ts) → Scans d b cs ts := by
      intro b b' cs cs' out ts hmove h ih
      obtain ⟨us, hus, rfl⟩ := thenScan_eq_ok_iff.1 h
      exact .move hmove (ih us hus)
    fun_induction scan d b cs generalizing ts with
    | case1 b =>
      cases h
      exact .done
    | case2 b c cs hc hs ih => exact then_move (.blank_ends hc hs) h fun _ => ih
    | case3 b c cs hc hs ih =>
      exact then_move (.blank_kept hc (by simpa using hs)) ((thenScan_nil _).trans h) fun _ => ih
    | case4 => cases h
    | case5 b e cs _ ih => exact then_move .escaped ((thenScan_nil _).trans h) fun _ => ih
    | case6 b c cs hblank hescape hquote text rest hread ih =>
      obtain ⟨rfl, hb⟩ := hquote
      exact then_move (.quoted (by simpa using hblank) hescape hb hread) h fun _ => ih
    | case7 => cases h
    | case8 => cases h
    | case9 b c cs hblank hescape hquote op rest hop ih =>
      exact then_move (.operator ⟨by simpa using hblank, hescape, hquote⟩ hop) h fun _ => ih
    | case10 b cs hb hblank hescape hquote hop ih =>
      exact then_move (.group ⟨by simpa using hblank, hescape, hquote⟩ hop hb) h fun _ => ih
    | case11 b cs hb body hread hblank hescape hquote hop ih =>
      exact then_move (.call ⟨by simpa using hblank, hescape, hquote⟩ hop (by simpa using hb) hread)
        h fun _ => ih
    | case12 => cases h
    | case13 b cs hblank hescape hquote hop hne ih =>
      exact then_move (.closing ⟨by simpa using hblank, hescape, hquote⟩ hop hne) h fun _ => ih
    | case14 b c cs hblank hescape hquote hop hopen hclose ih =>
      exact then_move (.text ⟨⟨by simpa using hblank, hescape, hquote⟩, hop, hopen, hclose⟩)
        ((thenScan_nil _).trans h) fun _ => ih
  · intro h
    induction h with
    | done => exact scan_nil
    | move hmove _ ih =>
      rw [scan_of_move hmove, ih]
      rfl

/-! ## In front of a suffix -/

/-- A move is the same in front of a suffix that no operator reaches into. -/
theorem Move.append {suffix : List Char} (hstop : d.Stops suffix) (h : Move d b cs out b' cs') :
    Move d b (cs ++ suffix) out b' (cs' ++ suffix) := by
  have hnone : ∀ {cs : List Char}, d.operatorAt? cs = none →
      d.operatorAt? (cs ++ suffix) = none := by
    intro cs hop
    rw [Dialect.operatorAt?_append hstop, hop]
    rfl
  have hsome : ∀ {cs rest : List Char} {op : Token Atom}, d.operatorAt? cs = some (op, rest) →
      d.operatorAt? (cs ++ suffix) = some (op, rest ++ suffix) := by
    intro cs rest op hop
    rw [Dialect.operatorAt?_append hstop, hop]
    rfl
  cases h with
  | blank_ends hc hs => exact .blank_ends hc hs
  | blank_kept hc hs => exact .blank_kept hc hs
  | escaped => exact .escaped
  | quoted hblank hescape hb hread =>
    exact .quoted hblank hescape hb (Quoted.read_append suffix hread)
  | operator hc hop => exact .operator hc (hsome hop)
  | group hc hop hb => exact .group hc (hnone hop) hb
  | call hc hop hb hread =>
    have := Move.call hc (hnone hop) hb (CallBody.read_append suffix hread)
    exact this
  | closing hc hop hne => exact .closing hc (hnone hop) hne
  | text hc => exact .text ⟨hc.1, hnone hc.2.1, hc.2.2⟩

/-- A suffix follows a text: no operator reaches into it, it ends the literal that has begun, and
behind that literal it is read as `r`. -/
def Follows (d : Dialect) (suffix : List Char) (r : Except ScanError (List (Token Atom))) : Prop :=
  d.Stops suffix ∧ ∀ b, scan d b suffix = thenScan (d.flush b) r

theorem Follows.nil (d : Dialect) : Follows d [] (.ok []) := by
  refine ⟨Dialect.Stops.nil d, fun b => ?_⟩
  rw [scan_nil, thenScan, List.append_nil]

/-- **A text in front of a suffix**: it is read as it is by itself, and then the suffix is. -/
theorem scan_append {suffix : List Char} {r : Except ScanError (List (Token Atom))}
    (hsuffix : Follows d suffix r) (h : scan d b cs = .ok ts) :
    scan d b (cs ++ suffix) = thenScan ts r := by
  have h := scan_eq_ok_iff_scans.1 h
  clear * - hsuffix h
  induction h with
  | done => exact hsuffix.2 _
  | move hmove _ ih => rw [scan_of_move (hmove.append hsuffix.1), ih, thenScan_thenScan]

/-! ## Blanks in front -/

theorem IsSignOrText.congr (h : b.core = b'.core) (hc : IsSignOrText d b c) :
    IsSignOrText d b' c := by
  refine ⟨hc.not_blank, hc.ne_escape, ?_⟩
  rw [← Buffer.isVacant_congr h]
  exact hc.not_quote

/-- **A text is read alike behind buffers with the same core.** -/
theorem scan_congr (h : b.core = b'.core) (cs : List Char) : scan d b cs = scan d b' cs := by
  have hflush : ∀ {b b' : Buffer}, b.core = b'.core → d.flush b = d.flush b' := fun h =>
    d.flush_congr (Buffer.text_congr h)
  fun_induction scan d b cs generalizing b' with
  | case1 b => rw [scan_nil, hflush h]
  | case2 b c cs hc hs ih => rw [scan_blank hc, if_pos hs, hflush h]
  | case3 b c cs hc hs ih =>
    rw [scan_blank hc, if_neg hs]
    exact ih (Buffer.core_push_congr h c)
  | case4 b => rw [scan_escape_nil]
  | case5 b e cs _ ih =>
    rw [scan_escape]
    exact ih (Buffer.core_pushEscaped_congr h e)
  | case6 b c cs hblank hescape hquote text rest hread ih =>
    obtain ⟨rfl, hb⟩ := hquote
    rw [scan_quoted (by simpa using hblank) hescape (Buffer.isVacant_congr h ▸ hb), hread]
  | case7 b c cs hblank hescape hquote hread =>
    obtain ⟨rfl, hb⟩ := hquote
    rw [scan_quoted (by simpa using hblank) hescape (Buffer.isVacant_congr h ▸ hb), hread]
  | case8 b c cs hblank hescape hquote fault hfault hread =>
    obtain ⟨rfl, hb⟩ := hquote
    rw [scan_quoted (by simpa using hblank) hescape (Buffer.isVacant_congr h ▸ hb), hread]
    cases fault with
    | danglingEscape => exact absurd rfl hfault
    | _ => rfl
  | case9 b c cs hblank hescape hquote op rest hop ih =>
    have hc : IsSignOrText d b c := ⟨by simpa using hblank, hescape, hquote⟩
    rw [scan_operator (hc.congr h) hop, hflush h]
  | case10 b cs hb hblank hescape hquote hop ih =>
    have hc : IsSignOrText d b d.opening := ⟨by simpa using hblank, hescape, hquote⟩
    rw [scan_opening (hc.congr h) hop, ← Buffer.isVacant_congr h, if_pos hb]
  | case11 b cs hb body hread hblank hescape hquote hop ih =>
    have hc : IsSignOrText d b d.opening := ⟨by simpa using hblank, hescape, hquote⟩
    rw [scan_opening (hc.congr h) hop, ← Buffer.isVacant_congr h, if_neg hb, hread,
      Buffer.text_congr h]
  | case12 b cs hb hread hblank hescape hquote hop =>
    have hc : IsSignOrText d b d.opening := ⟨by simpa using hblank, hescape, hquote⟩
    rw [scan_opening (hc.congr h) hop, ← Buffer.isVacant_congr h, if_neg hb, hread]
  | case13 b cs hblank hescape hquote hop hne ih =>
    have hc : IsSignOrText d b d.closing := ⟨by simpa using hblank, hescape, hquote⟩
    rw [scan_closing (hc.congr h) hop hne, hflush h]
  | case14 b c cs hblank hescape hquote hop hopen hclose ih =>
    have hc : IsSignOrText d b c := ⟨by simpa using hblank, hescape, hquote⟩
    rw [scan_text ⟨hc.congr h, hop, hopen, hclose⟩]
    exact ih (Buffer.core_push_congr h c)

theorem scan_empty_blank (hc : Text.isBlank c = true) (cs : List Char) :
    scan d .empty (c :: cs) = scan d .empty cs := by
  rw [scan_blank hc]
  split
  · exact thenScan_nil _
  · exact scan_congr (Buffer.core_push_empty_of_blank hc) cs

/-- A blank behind a literal either ends it or is no part of it. -/
theorem scan_blank_thenScan (hc : Text.isBlank c = true)
    {r : Except ScanError (List (Token Atom))}
    (h : ∀ b, scan d b cs = thenScan (d.flush b) r) :
    scan d b (c :: cs) = thenScan (d.flush b) r := by
  rw [scan_blank hc]
  split
  · rw [h]
    exact congrArg (thenScan (d.flush b)) (thenScan_nil r)
  · rw [h, d.flush_congr (Buffer.text_push_of_blank b hc)]

/-! ## What follows a literal -/

/-- **An operator between blanks** ends the literal in front of it and starts afresh behind. -/
theorem Follows.operator (hd : d.Separable) {op : Token Atom} (hop : op.isOperator) {x y : Char}
    (hx : Text.isBlank x = true) (hy : Text.isBlank y = true) (cs : List Char) :
    Follows d (x :: d.spelling op ++ y :: cs) (thenScan [op] (scan d .empty cs)) := by
  refine ⟨hd.stops_of_blank hx _, fun b => ?_⟩
  rw [List.cons_append]
  refine scan_blank_thenScan hx (fun b => ?_)
  obtain ⟨c, rest, hspell, hblank, hescape, hquote⟩ := hd.exists_head hop
  have hfound := hd.operatorAt?_spelling hop hy cs
  rw [hspell, List.cons_append] at hfound
  rw [hspell, List.cons_append, scan_operator ⟨hblank, hescape, fun h => hquote h.1⟩ hfound,
    scan_empty_blank hy, thenScan_thenScan]

theorem Follows.closing (hd : d.WellFormed) (cs : List Char) :
    Follows d (d.closing :: cs) (thenScan [.closing] (scan d .empty cs)) := by
  have hstop : d.Stops (d.closing :: cs) := hd.stops_of_reserved (by simp [Dialect.IsReserved]) cs
  refine ⟨hstop, fun b => ?_⟩
  have hc : IsSignOrText d b d.closing :=
    ⟨hd.closing_not_blank, hd.closing_ne_escape, fun h => hd.closing_ne_quote h.1⟩
  rw [scan_closing hc hstop.operatorAt?_eq_none hd.opening_ne_closing.symm,
    thenScan_thenScan]

theorem scan_empty_opening (hd : d.WellFormed) (cs : List Char) :
    scan d .empty (d.opening :: cs) = thenScan [.opening] (scan d .empty cs) := by
  have hstop : d.Stops (d.opening :: cs) := hd.stops_of_reserved (by simp [Dialect.IsReserved]) cs
  have hc : IsSignOrText d .empty d.opening :=
    ⟨hd.opening_not_blank, hd.opening_ne_escape, fun h => hd.opening_ne_quote h.1⟩
  rw [scan_opening hc hstop.operatorAt?_eq_none]
  rfl

end Token

end PositiveLogic
