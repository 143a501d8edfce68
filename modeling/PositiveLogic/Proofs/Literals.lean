import PositiveLogic.Proofs.Scanning
import PositiveLogic.Token.Spelling

/-!
# Reading back plain literals

A plain literal stands bare, is quoted, or has its special characters escaped. In each form it is
read back as itself (`Token.scan_spellAtom_plain`), where its modifiers are modifiers of the dialect
and its text starts with none of them.

* `Mark.spell` writes a character of a literal, with the escape character in front of it or not.
* `Token.FitAll`: marks that are added to the literal one by one where they are written, so that
  they are read as they were written (`Token.scan_marks`).
-/

namespace PositiveLogic

/-! ## Marks as they are written -/

namespace Mark

/-- A character that is not escaped. -/
def plain (c : Char) : Mark := ⟨c, false⟩

/-- A mark as it is written. -/
def spell (m : Mark) : List Char := if m.escaped then [escape, m.char] else [m.char]

theorem flatMap_spell_plain (cs : List Char) : (cs.map plain).flatMap spell = cs := by
  induction cs with
  | nil => rfl
  | cons c cs ih => rw [List.map_cons, List.flatMap_cons, ih]; rfl

theorem map_char_plain (cs : List Char) : (cs.map plain).map char = cs := by
  rw [List.map_map]
  exact List.map_id cs

theorem prefix_map_char {xs : List Char} {ms : List Mark} (hxs : escape ∉ xs)
    (h : xs <+: ms.flatMap spell) : xs <+: ms.map char := by
  induction ms generalizing xs with
  | nil => exact h
  | cons m ms ih =>
    cases xs with
    | nil => exact List.nil_prefix
    | cons x xs =>
      obtain ⟨c, escaped⟩ := m
      cases escaped with
      | true =>
        have hx : x = escape := (List.cons_prefix_cons.1 h).1
        exact absurd (by simp [hx]) hxs
      | false =>
        obtain ⟨hx, hrest⟩ := List.cons_prefix_cons.1 h
        exact List.cons_prefix_cons.2 ⟨hx, ih (fun hmem => hxs (List.mem_cons_of_mem _ hmem)) hrest⟩

end Mark

namespace Dialect

variable {d : Dialect}

/-- Escapes between characters make no operator. -/
theorem WellFormed.operatorAt?_spell (hd : d.WellFormed) {ms : List Mark} {suffix : List Char}
    (hstop : d.Stops suffix) (h : d.operatorAt? (ms.map Mark.char) = none) :
    d.operatorAt? (ms.flatMap Mark.spell ++ suffix) = none := by
  have hescape : ∀ s : List Char, (∀ c ∈ s, c ∈ d.andOp.toList ++ d.orOp.toList) → escape ∉ s :=
    fun s hs hmem => hd.operator _ (hs _ hmem) (by simp [IsReserved])
  rw [operatorAt?_eq_none_iff hd.and_ne_nil hd.or_ne_nil] at h
  rw [operatorAt?_append hstop, Option.map_eq_none_iff,
    operatorAt?_eq_none_iff hd.and_ne_nil hd.or_ne_nil]
  constructor
  · exact fun hpre => h.1 (Mark.prefix_map_char
      (hescape _ fun c hc => List.mem_append_left _ hc) hpre)
  · exact fun hpre => h.2 (Mark.prefix_map_char
      (hescape _ fun c hc => List.mem_append_right _ hc) hpre)

end Dialect

namespace Token

variable {d : Dialect} {b : Buffer} {c : Char} {cs suffix : List Char}

/-! ## Reading marks -/

/-- A character that is added to the literal that has begun as it stands. -/
def Fits (d : Dialect) (b : Buffer) (c : Char) (cs : List Char) : Prop :=
  (Text.isBlank c = true ∧ d.splitOnBlank = false) ∨ IsText d b c cs

theorem scan_fits (h : Fits d b c cs) : scan d b (c :: cs) = scan d (b.push c) cs := by
  rcases h with ⟨hc, hs⟩ | h
  · rw [scan_blank hc, if_neg (by simp [hs])]
  · exact scan_text h

/-- Marks that are read into the literal that has begun, if they are written in front of
`suffix`. -/
def FitAll (d : Dialect) (suffix : List Char) : Buffer → List Mark → Prop
  | _, [] => True
  | b, m :: ms =>
    (m.escaped = false → Fits d b m.char (ms.flatMap Mark.spell ++ suffix)) ∧
      FitAll d suffix (b.extend [m]) ms

/-- **Marks that fit are read as they were written.** -/
theorem scan_marks {ms : List Mark} (h : FitAll d suffix b ms) :
    scan d b (ms.flatMap Mark.spell ++ suffix) = scan d (b.extend ms) suffix := by
  induction ms generalizing b with
  | nil => rfl
  | cons m ms ih =>
    obtain ⟨hm, hms⟩ := h
    obtain ⟨c, escaped⟩ := m
    rw [List.flatMap_cons, List.append_assoc]
    cases escaped with
    | true =>
      have hspell : Mark.spell ⟨c, true⟩ = [escape, c] := rfl
      rw [hspell, List.cons_append, List.cons_append, List.nil_append, scan_escape,
        ← Buffer.extend_pushEscaped]
      exact ih hms
    | false =>
      have hspell : Mark.spell ⟨c, false⟩ = [c] := rfl
      rw [hspell, List.cons_append, List.nil_append, scan_fits (hm rfl), ← Buffer.extend_push]
      exact ih hms

theorem FitAll.append {ms ns : List Mark} (hms : FitAll d (ns.flatMap Mark.spell ++ suffix) b ms)
    (hns : FitAll d suffix (b.extend ms) ns) : FitAll d suffix b (ms ++ ns) := by
  induction ms generalizing b with
  | nil => exact hns
  | cons m ms ih =>
    obtain ⟨hm, hms⟩ := hms
    refine ⟨fun h => ?_, ih hms ?_⟩
    · show Fits d b m.char ((ms ++ ns).flatMap Mark.spell ++ suffix)
      rw [List.flatMap_append, List.append_assoc]
      exact hm h
    · have hext : (b.extend [m]).extend ms = b.extend (m :: ms) := by simp [Buffer.extend]
      rwa [hext]

/-- Where blanks part literals, none of the marks of a literal is left out at its ends. -/
theorem FitAll.not_slack {ms : List Mark} (h : FitAll d suffix b ms) (hs : d.splitOnBlank = true) :
    ∀ m ∈ ms, m.isSlack = false := by
  induction ms generalizing b with
  | nil => exact List.forall_mem_nil _
  | cons m ms ih =>
    obtain ⟨hm, hms⟩ := h
    refine List.forall_mem_cons.2 ⟨?_, ih hms⟩
    cases hescaped : m.escaped with
    | true => exact Mark.isSlack_of_escaped hescaped
    | false =>
      rw [Mark.isSlack_of_not_escaped hescaped]
      rcases hm hescaped with ⟨-, hkept⟩ | htext
      · rw [hs] at hkept
        cases hkept
      · exact htext.1.not_blank

end Token

namespace Dialect

variable {d : Dialect} {b : Buffer} {cs suffix : List Char}

/-! ## The marks of a text -/

/-- The characters of a text, those escaped that need care. -/
def marksOf (d : Dialect) (atStart : Bool) : List Char → List Mark
  | [] => []
  | c :: cs => ⟨c, d.isSpecial atStart (c :: cs)⟩ :: d.marksOf false cs

theorem flatMap_spell_marksOf (d : Dialect) (atStart : Bool) (cs : List Char) :
    (d.marksOf atStart cs).flatMap Mark.spell = d.escapeSpecial atStart cs := by
  induction cs generalizing atStart with
  | nil => rfl
  | cons c cs ih =>
    rw [marksOf, List.flatMap_cons, ih, escapeSpecial, Mark.spell]
    split <;> rfl

theorem map_char_marksOf (d : Dialect) (atStart : Bool) (cs : List Char) :
    (d.marksOf atStart cs).map Mark.char = cs := by
  induction cs generalizing atStart with
  | nil => rfl
  | cons c cs ih => rw [marksOf, List.map_cons, ih]

theorem escapeSpecial_of_not_hasSpecial {atStart : Bool} (h : d.hasSpecial atStart cs = false) :
    d.escapeSpecial atStart cs = cs := by
  induction cs generalizing atStart with
  | nil => rfl
  | cons c cs ih =>
    obtain ⟨hc, hcs⟩ := Bool.or_eq_false_iff.1 h
    rw [escapeSpecial, if_neg (by simp [hc]), ih hcs]

theorem fits_of_not_isSpecial {atStart : Bool} {c : Char}
    (h : d.isSpecial atStart (c :: cs) = false) (rest : List Char)
    (hop : d.operatorAt? (c :: cs) = none → d.operatorAt? (c :: rest) = none) :
    Token.Fits d b c rest := by
  simp only [isSpecial, Bool.or_eq_false_iff, beq_eq_false_iff_ne, ne_eq,
    Option.isSome_eq_false_iff, Option.isNone_iff_eq_none] at h
  obtain ⟨⟨⟨⟨⟨hblank, hescape⟩, hquote⟩, hopen⟩, hclose⟩, hnone⟩ := h
  cases hc : Text.isBlank c with
  | true =>
    rw [hc, Bool.true_and, Bool.or_eq_false_iff, Bool.or_eq_false_iff] at hblank
    exact Or.inl ⟨hc, hblank.1.1⟩
  | false => exact Or.inr ⟨⟨hc, hescape, fun h => hquote h.1⟩, hop hnone, hopen, hclose⟩

/-- The marks of a text fit. -/
theorem WellFormed.fitAll_marksOf (hd : d.WellFormed) (hstop : d.Stops suffix) (atStart : Bool)
    (b : Buffer) (cs : List Char) : Token.FitAll d suffix b (d.marksOf atStart cs) := by
  induction cs generalizing atStart b with
  | nil => trivial
  | cons c cs ih =>
    refine ⟨fun h => fits_of_not_isSpecial h _ fun hnone => ?_, ih false _⟩
    have hms : d.operatorAt? ((Mark.plain c :: d.marksOf false cs).map Mark.char) = none := by
      rw [List.map_cons, map_char_marksOf]
      exact hnone
    exact hd.operatorAt?_spell hstop hms

theorem marksOf_head {m : Mark} (h : (d.marksOf true cs).head? = some m) : m.isSlack = false := by
  cases cs with
  | nil => cases h
  | cons c cs =>
    obtain rfl := Option.some.inj h
    cases hc : Text.isBlank c <;> simp [Mark.isSlack, isSpecial, hc]

theorem marksOf_getLast {atStart : Bool} {m : Mark}
    (h : (d.marksOf atStart cs).getLast? = some m) : m.isSlack = false := by
  induction cs generalizing atStart with
  | nil => cases h
  | cons c cs ih =>
    cases cs with
    | nil =>
      rw [marksOf, marksOf, List.getLast?_singleton] at h
      obtain rfl := Option.some.inj h
      cases hc : Text.isBlank c <;> simp [Mark.isSlack, isSpecial, hc]
    | cons c' cs =>
      rw [marksOf, marksOf, List.getLast?_cons_cons] at h
      exact ih h

/-! ## Modifiers -/

theorem isModifier_iff {c : Char} : d.isModifier c = true ↔ c ∈ d.modifiers.toList := by
  unfold isModifier CharSet.contains
  rw [List.contains_iff_mem]

theorem WellFormed.isText_of_isModifier (hd : d.WellFormed) {c : Char}
    (hc : d.isModifier c = true) (b : Buffer) (cs : List Char) : Token.IsText d b c cs := by
  obtain ⟨hreserved, hand, hor⟩ := hd.modifier c (isModifier_iff.1 hc)
  simp only [IsReserved, not_or, Bool.not_eq_true] at hreserved
  obtain ⟨hblank, hescape, hquote, hopen, hclose⟩ := hreserved
  refine ⟨⟨hblank, hescape, fun h => hquote h.1⟩, ?_, hopen, hclose⟩
  have hnot : ∀ s : List Char, s ≠ [] → s.head? ≠ some c → ¬ s <+: c :: cs := by
    intro s hs hhead hpre
    cases s with
    | nil => exact hs rfl
    | cons x s =>
      obtain ⟨rfl, -⟩ := List.cons_prefix_cons.1 hpre
      exact hhead rfl
  rw [operatorAt?_eq_none_iff hd.and_ne_nil hd.or_ne_nil]
  exact ⟨hnot _ hd.and_ne_nil hand, hnot _ hd.or_ne_nil hor⟩

theorem WellFormed.fitAll_modifiers (hd : d.WellFormed) {ms : List Char}
    (hms : ∀ c ∈ ms, d.isModifier c = true) (b : Buffer) (suffix : List Char) :
    Token.FitAll d suffix b (ms.map Mark.plain) := by
  induction ms generalizing b with
  | nil => trivial
  | cons c ms ih =>
    exact ⟨fun _ => Or.inr (hd.isText_of_isModifier (hms c (by simp)) _ _),
      ih (fun c hc => hms c (by simp [hc])) _⟩

theorem plain_append {ms cs : List Char} (hms : ∀ c ∈ ms, d.isModifier c = true)
    (hcs : d.startsWithModifier cs = false) :
    d.plain (ms ++ cs) = ⟨ms, String.ofList cs, none⟩ := by
  have htake : cs.takeWhile d.isModifier = [] := by
    cases cs with
    | nil => rfl
    | cons c cs => exact List.takeWhile_cons_of_neg (by simpa [startsWithModifier] using hcs)
  have hdrop : cs.dropWhile d.isModifier = cs := by
    cases cs with
    | nil => rfl
    | cons c cs => exact List.dropWhile_cons_of_neg (by simpa [startsWithModifier] using hcs)
  unfold plain
  rw [List.takeWhile_append_of_pos hms, htake, List.append_nil,
    List.dropWhile_append_of_pos hms, hdrop]

/-! ## Plain literals -/

/-- The atoms that are written so that they are read back whatever their text is: plain ones whose
modifiers are modifiers of the dialect, with a text that starts with none of them. -/
structure IsPlain (d : Dialect) (a : Atom) : Prop where
  call : a.call = none
  modifiers : ∀ c ∈ a.modifiers, d.isModifier c = true
  value : a.modifiers ≠ [] → d.startsWithModifier a.value.toList = false

end Dialect

namespace Token

variable {d : Dialect}

/-- Modifiers and a text behind them are one literal. -/
theorem scan_modifiers_value (hd : d.WellFormed) {ms cs : List Char}
    (hms : ∀ c ∈ ms, d.isModifier c = true) (hcs : d.startsWithModifier cs = false)
    (hne : ms ++ cs ≠ []) :
    scan d .empty (ms ++ d.escapeSpecial true cs) =
      .ok [.literal ⟨ms, String.ofList cs, none⟩] := by
  have hfit : FitAll d [] .empty (ms.map Mark.plain ++ d.marksOf true cs) :=
    .append (hd.fitAll_modifiers hms _ _) (hd.fitAll_marksOf (Dialect.Stops.nil d) true _ cs)
  have hmarks : (Buffer.empty.extend (ms.map Mark.plain ++ d.marksOf true cs)).marks =
      ms.map Mark.plain ++ d.marksOf true cs := by simp
  have hmodifier : ∀ c ∈ ms, (Mark.plain c).isSlack = false := fun c hc => by
    rw [Mark.isSlack, Mark.plain, (hd.isText_of_isModifier (hms c hc) .empty []).1.not_blank]
    rfl
  have htext : (Buffer.empty.extend (ms.map Mark.plain ++ d.marksOf true cs)).text = ms ++ cs := by
    rw [Buffer.text_eq_of_edges, hmarks, List.map_append, Mark.map_char_plain,
      Dialect.map_char_marksOf]
    · -- the first mark is a modifier or a first mark of the text
      intro m hm
      rw [hmarks, List.head?_append, Option.or_eq_some_iff] at hm
      rcases hm with hm | ⟨-, hm⟩
      · obtain ⟨c, hc, rfl⟩ := List.mem_map.1 (List.mem_of_mem_head? hm)
        exact hmodifier c hc
      · exact Dialect.marksOf_head hm
    · -- the last mark is a last mark of the text or a modifier
      intro m hm
      rw [hmarks, List.getLast?_append, Option.or_eq_some_iff] at hm
      rcases hm with hm | ⟨-, hm⟩
      · exact Dialect.marksOf_getLast hm
      · obtain ⟨c, hc, rfl⟩ := List.mem_map.1 (List.mem_of_getLast? hm)
        exact hmodifier c hc
  have hscan := scan_marks hfit
  rw [List.flatMap_append, Mark.flatMap_spell_plain, Dialect.flatMap_spell_marksOf,
    List.append_nil, scan_nil, d.flush_of_text_ne_nil (by rwa [htext]), htext] at hscan
  rw [hscan, Dialect.plain_append hms hcs]

theorem scan_quoted_text (hd : d.WellFormed) (cs : List Char) :
    scan d .empty (Quoted.write d.quote cs) = .ok [.literal ⟨[], String.ofList cs, none⟩] := by
  have hread := Quoted.read_write hd.quote_ne_escape cs []
  rw [Quoted.write, List.cons_append, scan_quoted hd.quote_not_blank hd.quote_ne_escape rfl, hread]
  show thenScan _ (scan d .empty []) = _
  rw [scan_nil]
  rfl

/-- **A plain literal is read back as itself.** -/
theorem scan_spellAtom_plain (hd : d.WellFormed) {a : Atom} (ha : d.IsPlain a) :
    scan d .empty (d.spellAtom a) = .ok [.literal a] := by
  obtain ⟨ms, value, call⟩ := a
  obtain ⟨hcall, hms, hvalue⟩ := ha
  obtain rfl : call = none := hcall
  have hofList : String.ofList value.toList = value := String.ofList_toList
  simp only [Dialect.spellAtom]
  split
  · next hnil =>
    obtain rfl : ms = [] := List.isEmpty_iff.1 hnil
    rw [Dialect.spellBare]
    split
    · rw [scan_quoted_text hd, hofList]
    · next hbare =>
      simp only [Bool.or_eq_true, not_or, Bool.not_eq_true, List.isEmpty_eq_false_iff] at hbare
      obtain ⟨⟨hne, hspecial⟩, hstart⟩ := hbare
      have hscan := scan_modifiers_value hd (List.forall_mem_nil _) hstart (by simpa using hne)
      rwa [List.nil_append, Dialect.escapeSpecial_of_not_hasSpecial hspecial, hofList] at hscan
  · next hne =>
    have hne : ms ≠ [] := fun h => hne (List.isEmpty_iff.2 h)
    rw [scan_modifiers_value hd hms (hvalue hne) (by simp [hne]), hofList]

end Token

end PositiveLogic
