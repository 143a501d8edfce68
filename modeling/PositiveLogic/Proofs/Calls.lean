import Mathlib.Data.List.Infix
import PositiveLogic.Proofs.Literals

/-!
# Reading back calls

The text of a call is written as it stands, so whether it is read back depends on its head, what
stands in front of its opening character.

* `Dialect.PlainHead`: nothing in the head would be read as a sign, and its ends would not be left
  out. Exactly then the head is read back (`Dialect.plainHead_iff`), and with it the call
  (`Token.scan_spellAtom_call`).
* `Token.Scannable`: the atoms that a reading gives (`Token.scannable_of_scan`).
-/

namespace PositiveLogic

namespace Dialect

variable {d : Dialect} {b : Buffer} {head cs suffix rest : List Char}

/-! ## Plain heads -/

/-- A head that is read as it stands: it holds no escape character, no end of a group and no
operator, it starts with no quote, no blank in it ends the literal, and its ends are no blanks. -/
structure PlainHead (d : Dialect) (head : List Char) : Prop where
  no_sign : ∀ c ∈ head, c ≠ escape ∧ c ≠ d.opening ∧ c ≠ d.closing
  no_operator : ¬ d.andOp.toList <:+: head ∧ ¬ d.orOp.toList <:+: head
  no_quote : head.head? ≠ some d.quote
  no_blank : d.splitOnBlank = true → ∀ c ∈ head, Text.isBlank c = false
  edges : (∀ c ∈ head.head?, Text.isBlank c = false) ∧ ∀ c ∈ head.getLast?, Text.isBlank c = false

instance (d : Dialect) (head : List Char) : Decidable (d.PlainHead head) :=
  decidable_of_iff
    (head.all (fun c => decide (c ≠ escape ∧ c ≠ d.opening ∧ c ≠ d.closing)) = true ∧
      (¬ d.andOp.toList <:+: head ∧ ¬ d.orOp.toList <:+: head) ∧ head.head? ≠ some d.quote ∧
      (d.splitOnBlank = true → head.all (fun c => !Text.isBlank c) = true) ∧
      head.head?.all (fun c => !Text.isBlank c) = true ∧
      head.getLast?.all (fun c => !Text.isBlank c) = true)
    (by
      simp only [List.all_eq_true, Option.all_eq_true, decide_eq_true_eq, Bool.not_eq_true']
      exact ⟨fun ⟨h₁, h₂, h₃, h₄, h₅⟩ => ⟨h₁, h₂, h₃, h₄, h₅⟩,
        fun ⟨h₁, h₂, h₃, h₄, h₅⟩ => ⟨h₁, h₂, h₃, h₄, h₅⟩⟩)

/-- An atom that is no call, or one with a plain head. -/
def PlainCall (d : Dialect) (a : Atom) : Prop :=
  ∀ call ∈ a.call, d.PlainHead (a.modifiers ++ call.name.toList)

instance (d : Dialect) (a : Atom) : Decidable (d.PlainCall a) :=
  inferInstanceAs (Decidable (∀ call ∈ a.call, _))

theorem WellFormed.not_sign_of_blank (hd : d.WellFormed) {c : Char} (hc : Text.isBlank c = true) :
    c ≠ escape ∧ c ≠ d.opening ∧ c ≠ d.closing := by
  have hne : ∀ x, Text.isBlank x = false → c ≠ x := by
    rintro x hx rfl
    rw [hx] at hc
    cases hc
  exact ⟨hne _ escape_not_blank, hne _ hd.opening_not_blank, hne _ hd.closing_not_blank⟩

end Dialect

namespace Token

variable {d : Dialect} {b : Buffer} {cs suffix : List Char}

theorem Fits.not_sign {c : Char} (h : Fits d b c cs) (hd : d.WellFormed) :
    c ≠ escape ∧ c ≠ d.opening ∧ c ≠ d.closing := by
  rcases h with ⟨hc, -⟩ | hc
  · exact hd.not_sign_of_blank hc
  · exact ⟨hc.1.ne_escape, hc.2.2⟩

/-- Characters that stand as they are fit if each of them fits behind those in front of it. -/
theorem fitAll_plain_iff : FitAll d suffix b (cs.map Mark.plain) ↔
    ∀ xs c ys, cs = xs ++ c :: ys → Fits d (b.extend (xs.map Mark.plain)) c (ys ++ suffix) := by
  induction cs generalizing b with
  | nil => simp [FitAll]
  | cons c cs ih =>
    have hext : ∀ xs : List Char, (b.extend [Mark.plain c]).extend (xs.map Mark.plain) =
        b.extend ((c :: xs).map Mark.plain) := by
      intro xs
      simp [Buffer.extend]
    rw [List.map_cons, FitAll, ih, Mark.flatMap_spell_plain]
    constructor
    · rintro ⟨hc, hcs⟩ xs x ys hsplit
      cases xs with
      | nil =>
        obtain ⟨rfl, rfl⟩ := List.cons.inj hsplit
        exact hc rfl
      | cons x' xs =>
        obtain ⟨rfl, rfl⟩ := List.cons.inj hsplit
        rw [← hext]
        exact hcs xs x ys rfl
    · intro h
      refine ⟨fun _ => h [] c cs rfl, fun xs x ys hsplit => ?_⟩
      rw [hext]
      exact h (c :: xs) x ys (congrArg (c :: ·) hsplit)

end Token

namespace Dialect

variable {d : Dialect} {head rest : List Char}

theorem PlainHead.fitAll (h : d.PlainHead head) (hd : d.WellFormed) (rest : List Char) :
    Token.FitAll d (d.opening :: rest) .empty (head.map Mark.plain) := by
  rw [Token.fitAll_plain_iff]
  rintro xs c ys rfl
  have hmem : c ∈ xs ++ c :: ys := by simp
  obtain ⟨hescape, hopen, hclose⟩ := h.no_sign c hmem
  by_cases hc : Text.isBlank c = true
  · refine Or.inl ⟨hc, Bool.eq_false_iff.2 fun hs => ?_⟩
    rw [h.no_blank hs c hmem] at hc
    cases hc
  refine Or.inr ⟨⟨Bool.eq_false_iff.2 hc, hescape, ?_⟩, ?_, hopen, hclose⟩
  · -- a quote in front of which nothing stands would be the first character
    rintro ⟨rfl, hvacant⟩
    cases xs with
    | nil => exact h.no_quote rfl
    | cons x xs =>
      have hx : Text.isBlank x = false := h.edges.1 x rfl
      rw [Buffer.isVacant_eq, Buffer.marks_extend, Buffer.marks_empty] at hvacant
      simp [Mark.plain, Mark.isSlack, hx] at hvacant
  · have hstop : d.Stops (d.opening :: rest) := hd.stops_of_reserved (by simp [IsReserved]) rest
    rw [← List.cons_append, operatorAt?_append hstop, Option.map_eq_none_iff,
      operatorAt?_eq_none_iff hd.and_ne_nil hd.or_ne_nil]
    have hinside : ∀ s : List Char, s <+: c :: ys → s <:+: xs ++ c :: ys := fun s hs =>
      hs.isInfix.trans (List.suffix_append xs (c :: ys)).isInfix
    exact ⟨fun hs => h.no_operator.1 (hinside _ hs), fun hs => h.no_operator.2 (hinside _ hs)⟩

/-- Characters that stand as they are, are the whole text exactly if no blank stands at their ends. -/
theorem text_eq_iff : (Buffer.empty.extend (head.map Mark.plain)).text = head ↔
    (∀ c ∈ head.head?, Text.isBlank c = false) ∧
      ∀ c ∈ head.getLast?, Text.isBlank c = false := by
  have hmarks : (Buffer.empty.extend (head.map Mark.plain)).marks = head.map Mark.plain := by simp
  constructor
  · intro h
    obtain ⟨hfirst, hlast⟩ := Buffer.edges_of_text (b := Buffer.empty.extend (head.map Mark.plain))
      (by rw [h, hmarks, List.length_map])
    rw [hmarks] at hfirst hlast
    constructor
    · intro c hc
      exact hfirst (Mark.plain c) (by rw [List.head?_map, hc, Option.map_some])
    · intro c hc
      exact hlast (Mark.plain c) (by rw [List.getLast?_map, hc, Option.map_some])
  · rintro ⟨hfirst, hlast⟩
    rw [Buffer.text_eq_of_edges, hmarks, Mark.map_char_plain]
    · intro m hm
      rw [hmarks, List.head?_map, Option.map_eq_some_iff] at hm
      obtain ⟨c, hc, rfl⟩ := hm
      exact hfirst c hc
    · intro m hm
      rw [hmarks, List.getLast?_map, Option.map_eq_some_iff] at hm
      obtain ⟨c, hc, rfl⟩ := hm
      exact hlast c hc

/-- **Exactly a plain head is read back**: its characters are added to the literal one by one, and
none is left out. -/
theorem plainHead_iff (hd : d.WellFormed) : d.PlainHead head ↔
    Token.FitAll d (d.opening :: rest) .empty (head.map Mark.plain) ∧
      (Buffer.empty.extend (head.map Mark.plain)).text = head := by
  constructor
  · exact fun h => ⟨h.fitAll hd rest, text_eq_iff.2 h.edges⟩
  rintro ⟨hfit, htext⟩
  rw [Token.fitAll_plain_iff] at hfit
  -- an operator in the head would start at a character that fits
  have hoperator : ∀ op, op = d.andOp ∨ op = d.orOp → op.toList ≠ [] →
      (∀ c ∈ op.toList, c ∈ d.andOp.toList ++ d.orOp.toList) → ¬ op.toList <:+: head := by
    intro op hop hne hmem
    refine not_infix_of_not_prefix (d.opening :: rest) hne
      (fun c hc => hd.separable.not_blank c (hmem c (List.mem_of_mem_head? hc)))
      fun xs c ys hsplit => (hfit xs c ys hsplit).imp And.left fun hc => ?_
    exact not_prefix_of_operatorAt?_eq_none hc.2.1 hop hne
  refine ⟨?_, ⟨?_, ?_⟩, ?_, ?_, text_eq_iff.1 htext⟩
  · intro c hc
    obtain ⟨xs, ys, hsplit⟩ := List.append_of_mem hc
    exact (hfit xs c ys hsplit).not_sign hd
  · exact hoperator d.andOp (.inl rfl) hd.and_ne_nil fun c => List.mem_append_left _
  · exact hoperator d.orOp (.inr rfl) hd.or_ne_nil fun c => List.mem_append_right _
  · intro hhead
    obtain ⟨ys, rfl⟩ := List.head?_eq_some_iff.1 hhead
    rcases hfit [] d.quote ys rfl with ⟨hc, -⟩ | hc
    · rw [hd.quote_not_blank] at hc
      cases hc
    · exact hc.1.not_quote ⟨rfl, rfl⟩
  · intro hs c hc
    obtain ⟨xs, ys, hsplit⟩ := List.append_of_mem hc
    rcases hfit xs c ys hsplit with ⟨-, hkept⟩ | hc
    · rw [hs] at hkept
      cases hkept
    · exact hc.1.not_blank

example : ({ splitOnBlank := false } : Dialect).PlainHead "a b".toList := by decide

example : ¬ ({} : Dialect).PlainHead "a&&b".toList := by decide

end Dialect

/-! ## Reading a call -/

namespace Dialect

variable {d : Dialect} {head head' cs : List Char} {body body' : CallBody} {a : Atom}

/-- What is written of a call is its head and the raw text of its parameters. -/
theorem spellAtom_call (d : Dialect) (head : List Char) (body : CallBody) :
    d.spellAtom (d.call head body) = head ++ d.opening :: body.raw := by
  simp only [spellAtom, call, String.toList_ofList]
  rw [← List.append_assoc, List.takeWhile_append_dropWhile]

theorem call_inj (h : d.call head body = d.call head' body') :
    head = head' ∧ body.raw = body'.raw := by
  obtain ⟨hmodifiers, hvalue, hcall⟩ := Atom.mk.inj h
  have hname := String.ofList_injective (Call.mk.inj (Option.some.inj hcall)).1
  constructor
  · rw [← List.takeWhile_append_dropWhile (p := d.isModifier) (l := head), hmodifiers, hname,
      List.takeWhile_append_dropWhile]
  · have hraw := String.ofList_injective hvalue
    rw [hname, List.append_cancel_left_eq] at hraw
    exact (List.cons.inj hraw).2

theorem plainCall_call : d.PlainCall (d.call head body) ↔ d.PlainHead head := by
  have hhead : head.takeWhile d.isModifier ++ (String.ofList (head.dropWhile d.isModifier)).toList =
      head := by
    rw [String.toList_ofList, List.takeWhile_append_dropWhile]
  constructor
  · intro h
    have hplain := h _ rfl
    rwa [call, hhead] at hplain
  · intro h call hcall
    cases hcall
    rwa [call, hhead]

theorem plainCall_of_call_eq_none (h : a.call = none) : d.PlainCall a := by
  intro call hcall
  rw [h] at hcall
  cases hcall

end Dialect

namespace Token

variable {d : Dialect} {b b' : Buffer} {head cs cs' rest : List Char} {body body' : CallBody}
  {out ts : List (Token Atom)} {a : Atom}

/-- A call at the end of a text, behind characters that stand as they are. -/
theorem scan_plain_call (hfit : FitAll d (d.opening :: cs) .empty (head.map Mark.plain))
    (htext : (Buffer.empty.extend (head.map Mark.plain)).text = head) (hne : head ≠ [])
    (hopen : Text.isBlank d.opening = false ∧ d.opening ≠ escape)
    (hstop : d.Stops (d.opening :: cs)) (hread : CallBody.read d 0 cs = some body)
    (hrest : body.rest = []) :
    scan d .empty (head ++ d.opening :: cs) = .ok [.literal (d.call head body)] := by
  have hbegun : (Buffer.empty.extend (head.map Mark.plain)).isVacant = false := by
    rw [Bool.eq_false_iff, Ne, ← Buffer.text_eq_nil_iff, htext]
    exact hne
  have hsign : IsSignOrText d (Buffer.empty.extend (head.map Mark.plain)) d.opening :=
    ⟨hopen.1, hopen.2, fun h => by simp [hbegun] at h⟩
  have hscan := scan_marks hfit
  rw [Mark.flatMap_spell_plain,
    scan_of_move (.call hsign hstop.operatorAt?_eq_none hbegun hread), htext, hrest, scan_nil] at hscan
  exact hscan

/-- **A call with a plain head is read back as itself.** -/
theorem scan_spellAtom_call (hd : d.WellFormed) (hhead : d.PlainHead head) (hne : head ≠ [])
    (hread : CallBody.read d 0 cs = some body) :
    scan d .empty (d.spellAtom (d.call head body)) = .ok [.literal (d.call head body)] := by
  have hraw := (CallBody.read_raw hread).2 []
  rw [List.append_nil] at hraw
  have hscan := scan_plain_call (hhead.fitAll hd body.raw) (Dialect.text_eq_iff.2 hhead.edges) hne
    (hd.sign d.opening (by simp)) (hd.stops_of_reserved (by simp [Dialect.IsReserved]) body.raw)
    hraw rfl
  rw [Dialect.spellAtom_call]
  exact hscan

/-! ## The literals of a reading -/

/-- The atoms that a reading gives: plain ones, and calls of a head with parameters that were
read. -/
inductive Scannable (d : Dialect) : Atom → Prop
  | plain {a : Atom} : d.IsPlain a → Scannable d a
  | call {head cs : List Char} {body : CallBody} : head ≠ [] →
      CallBody.read d 0 cs = some body → Scannable d (d.call head body)

theorem isPlain_plain (d : Dialect) (text : List Char) : d.IsPlain (d.plain text) where
  call := rfl
  modifiers c hc := List.mem_takeWhile_imp hc
  value _ := by
    rw [Dialect.plain, String.toList_ofList]
    have hnot := List.head?_dropWhile_not d.isModifier text
    cases hdrop : text.dropWhile d.isModifier with
    | nil => rfl
    | cons c cs =>
      rw [hdrop] at hnot
      simpa [Dialect.startsWithModifier] using hnot

theorem Move.scannable (h : Move d b cs out b' cs') (ha : .literal a ∈ out) : Scannable d a := by
  obtain ⟨-, rfl⟩ | ⟨text, rest, -, -, rfl⟩ | ⟨body, rest, -, hread, htext, rfl⟩ :=
    h.literal_cases ha
  · exact .plain (isPlain_plain d b.text)
  · exact .plain ⟨rfl, List.forall_mem_nil _, fun h => absurd rfl h⟩
  · exact .call htext hread

/-- **The literals of a reading.** -/
theorem scannable_of_scan (h : scan d b cs = .ok ts) (ha : .literal a ∈ ts) : Scannable d a := by
  induction scan_eq_ok_iff_scans.1 h with
  | @done b =>
    obtain ⟨-, rfl⟩ := Dialect.mem_flush_iff.1 ha
    exact .plain (isPlain_plain d b.text)
  | move hmove hscans ih =>
    rcases List.mem_append.1 ha with ha | ha
    · exact hmove.scannable ha
    · exact ih (scan_eq_ok_iff_scans.2 hscans) ha

theorem Scannable.isPlain (h : Scannable d a) (hcall : a.call = none) : d.IsPlain a := by
  cases h with
  | plain hplain => exact hplain
  | call _ _ => cases hcall

/-- **A literal of a reading is read back**, if it is no call or has a plain head. -/
theorem Scannable.scan_spellAtom (h : Scannable d a) (hd : d.WellFormed) (ha : d.PlainCall a) :
    scan d .empty (d.spellAtom a) = .ok [.literal a] := by
  cases h with
  | plain hplain => exact scan_spellAtom_plain hd hplain
  | call hne hread => exact scan_spellAtom_call hd (Dialect.plainCall_call.1 ha) hne hread

end Token

end PositiveLogic
