import PositiveLogic.Proofs.Calls
import PositiveLogic.Proofs.Composition

/-!
# Parameters written with escapes

An escape character in front of every character of a parameter keeps the signs in it from being
read: separators, opening and closing characters, quotes and the escape character itself. It does not
keep blanks at the ends of a parameter. A parameter is trimmed by its characters, when it is no longer
known which of them were escaped.

* `Dialect.writeEscaped`: a call with every character of its parameters escaped.
* `CallBody.read_joinEscaped`: escaped texts with separators in between are the pieces of a call.
* `Token.ofText_writeEscaped`: the one token of such a text, and that its parameters are the given ones
  exactly if none of them starts or ends with a blank.
-/

namespace PositiveLogic

/-- A text without the blanks at its ends. -/
def Text.trimmed (s : String) : String := String.ofList (trim s.toList)

/-- A text with the escape character in front of every character. -/
def escapeAll (cs : List Char) : List Char := cs.flatMap fun c => [escape, c]

theorem escapeAll_cons (c : Char) (cs : List Char) :
    escapeAll (c :: cs) = escape :: c :: escapeAll cs := rfl

namespace Dialect

variable {d : Dialect} {name : String}

/-! ## Calls with escaped parameters -/

/-- The signs of a call are told apart, none of them is a blank or the escape character, and no
operator holds the opening character. -/
structure TellsParameters (d : Dialect) : Prop where
  opening_ne_closing : d.opening ≠ d.closing
  separator_ne_opening : d.separator ≠ d.opening
  separator_ne_closing : d.separator ≠ d.closing
  sign : ∀ c ∈ [d.opening, d.closing, d.separator], Text.isBlank c = false ∧ c ≠ escape
  operator : d.opening ∉ d.andOp.toList ∧ d.opening ∉ d.orOp.toList

instance (d : Dialect) : Decidable d.TellsParameters :=
  decidable_of_iff
    (d.opening ≠ d.closing ∧ d.separator ≠ d.opening ∧ d.separator ≠ d.closing ∧
      [d.opening, d.closing, d.separator].all (fun c => !Text.isBlank c && c != escape) = true ∧
      d.opening ∉ d.andOp.toList ∧ d.opening ∉ d.orOp.toList)
    (by
      simp only [List.all_eq_true, Bool.and_eq_true, Bool.not_eq_true', bne_iff_ne]
      exact ⟨fun ⟨h₁, h₂, h₃, h₄, h₅⟩ => ⟨h₁, h₂, h₃, h₄, h₅⟩,
        fun ⟨h₁, h₂, h₃, h₄, h₅⟩ => ⟨h₁, h₂, h₃, h₄, h₅⟩⟩)

/-- A name of which every character is taken as it stands. -/
structure IsName (d : Dialect) (name : String) : Prop where
  ne_empty : name ≠ ""
  not_reserved : ∀ c ∈ name.toList, ¬ d.IsReserved c
  no_operator : ∀ c ∈ name.toList, c ∉ d.andOp.toList ∧ c ∉ d.orOp.toList

instance (d : Dialect) (name : String) : Decidable (d.IsName name) :=
  decidable_of_iff
    (name ≠ "" ∧ name.toList.all (fun c => !decide (d.IsReserved c)) = true ∧
      name.toList.all (fun c => decide (c ∉ d.andOp.toList ∧ c ∉ d.orOp.toList)) = true)
    (by
      simp only [List.all_eq_true, Bool.not_eq_true', decide_eq_false_iff_not, decide_eq_true_eq]
      exact ⟨fun ⟨h₁, h₂, h₃⟩ => ⟨h₁, h₂, h₃⟩, fun ⟨h₁, h₂, h₃⟩ => ⟨h₁, h₂, h₃⟩⟩)

/-- Escaped texts with separators in between. -/
def joinEscaped (d : Dialect) (ps : List (List Char)) : List Char :=
  [d.separator].intercalate (ps.map escapeAll)

/-- A call with every character of its parameters escaped. -/
def writeEscaped (d : Dialect) (name : String) (ps : List String) : String :=
  String.ofList
    (name.toList ++ d.opening :: (d.joinEscaped (ps.map String.toList) ++ [d.closing]))

theorem joinEscaped_singleton (d : Dialect) (p : List Char) : d.joinEscaped [p] = escapeAll p := by
  rw [joinEscaped, List.map_singleton, List.intercalate_singleton]

theorem joinEscaped_cons_cons (d : Dialect) (p q : List Char) (ps : List (List Char)) :
    d.joinEscaped (p :: q :: ps) = escapeAll p ++ d.separator :: d.joinEscaped (q :: ps) := by
  rw [joinEscaped, List.map_cons, List.map_cons, List.intercalate_cons_cons, List.append_assoc]
  rfl

theorem IsName.fitAll (h : d.IsName name) (suffix : List Char) :
    Token.FitAll d suffix .empty (name.toList.map Mark.plain) := by
  rw [Token.fitAll_plain_iff]
  intro xs c ys hsplit
  have hmem : c ∈ name.toList := by simp [hsplit]
  have hreserved := h.not_reserved c hmem
  simp only [IsReserved, not_or, Bool.not_eq_true] at hreserved
  obtain ⟨hblank, hescape, hquote, hopen, hclose⟩ := hreserved
  obtain ⟨hand, hor⟩ := h.no_operator c hmem
  exact .inr ⟨⟨hblank, hescape, fun h => hquote h.1⟩, (Stops.cons hand hor _).operatorAt?_eq_none,
    hopen, hclose⟩

theorem IsName.text_eq (h : d.IsName name) :
    (Buffer.empty.extend (name.toList.map Mark.plain)).text = name.toList := by
  have hblank : ∀ c ∈ name.toList, Text.isBlank c = false := fun c hc =>
    Bool.eq_false_iff.2 fun hblank => h.not_reserved c hc (.inl hblank)
  exact text_eq_iff.2 ⟨fun c hc => hblank c (List.mem_of_mem_head? hc),
    fun c hc => hblank c (List.mem_of_getLast? hc)⟩

end Dialect

namespace CallBody

variable {d : Dialect} {depth : Nat} {b : CallBody} {cs : List Char}

/-! ## Reading escaped texts -/

/-- Escaped characters belong to the first piece, whatever they are. -/
theorem read_escapeAll (p : List Char) (h : read d depth cs = some b) :
    read d depth (escapeAll p ++ cs) =
      some { b with raw := escapeAll p ++ b.raw, first := p ++ b.first } := by
  induction p with
  | nil => exact h
  | cons c p ih =>
    rw [escapeAll_cons, List.cons_append, List.cons_append, read_escape, ih]
    rfl

/-- **Escaped texts with separators in between are the pieces of a call.** -/
theorem read_joinEscaped (hd : d.TellsParameters) (p : List Char) (ps : List (List Char))
    (rest : List Char) : read d 0 (d.joinEscaped (p :: ps) ++ d.closing :: rest) =
      some ⟨d.joinEscaped (p :: ps) ++ [d.closing], p, ps, rest⟩ := by
  -- on the texts behind the first one: the last one ends at the closing character
  induction ps generalizing p with
  | nil =>
    have hend : read d 0 (d.closing :: rest) = some ⟨[d.closing], [], [], rest⟩ := by
      rw [read.eq_def]
      simp only [if_neg (hd.sign d.closing (by simp)).2, if_neg hd.opening_ne_closing.symm, if_true]
    rw [Dialect.joinEscaped_singleton, read_escapeAll p hend, List.append_nil]
  | cons q ps ih =>
    have hcut : read d 0 (d.separator :: (d.joinEscaped (q :: ps) ++ d.closing :: rest)) =
        some ⟨d.separator :: (d.joinEscaped (q :: ps) ++ [d.closing]), [], q :: ps, rest⟩ := by
      rw [read.eq_def]
      simp only [if_neg (hd.sign d.separator (by simp)).2, if_neg hd.separator_ne_opening,
        if_neg hd.separator_ne_closing, and_self, if_true, ih q]
      rfl
    rw [Dialect.joinEscaped_cons_cons, List.append_assoc, List.cons_append, read_escapeAll p hcut,
      List.append_nil, List.append_assoc, List.cons_append]

/-- The parameters are the trimmed pieces, but not a single empty one. -/
theorem params_eq {ps : List String} (hps : b.first :: b.others = ps.map String.toList) :
    b.params = if ps.map Text.trimmed = [""] then [] else ps.map Text.trimmed := by
  have htrimmed : ((ps.map String.toList).map Text.trim).map String.ofList =
      ps.map Text.trimmed := by
    rw [List.map_map, List.map_map]
    rfl
  have hempty : (ps.map String.toList).map Text.trim = [[]] ↔ ps.map Text.trimmed = [""] := by
    rw [← htrimmed, ← (List.map_injective_iff.2 fun _ _ h => String.ofList_injective h).eq_iff]
    rfl
  rw [params, hps, htrimmed]
  simp only [hempty]

/-- Trimmed parameters are the given ones exactly if these are trimmed and not a single empty one. -/
theorem trimmed_params_eq_iff (ps : List String) :
    (if ps.map Text.trimmed = [""] then [] else ps.map Text.trimmed) = ps ↔
      ps ≠ [""] ∧ ∀ p ∈ ps, Text.trimmed p = p := by
  have hself : ps.map Text.trimmed = ps ↔ ∀ p ∈ ps, Text.trimmed p = p := by
    conv_lhs => rhs; rw [← List.map_id ps]
    exact List.map_inj_left
  split
  · next hempty =>
    constructor
    · rintro rfl
      cases hempty
    · rintro ⟨hne, htrimmed⟩
      rw [hself.2 htrimmed] at hempty
      exact absurd hempty hne
  · next hempty =>
    rw [hself, iff_and_self]
    rintro htrimmed rfl
    exact hempty (hself.2 htrimmed)

/-- What is read of written parameters. No parameters are written like a single empty one. -/
theorem exists_read_joinEscaped (hd : d.TellsParameters) (ps : List String) : ∃ b,
    read d 0 (d.joinEscaped (ps.map String.toList) ++ [d.closing]) = some b ∧
      b.raw = d.joinEscaped (ps.map String.toList) ++ [d.closing] ∧ b.rest = [] ∧
      b.params = if ps.map Text.trimmed = [""] then [] else ps.map Text.trimmed := by
  cases ps with
  | nil => exact ⟨_, read_joinEscaped hd [] [] [], rfl, rfl, rfl⟩
  | cons p ps => exact ⟨_, read_joinEscaped hd p.toList _ [], rfl, rfl, params_eq rfl⟩

end CallBody

namespace Token

variable {d : Dialect} {name : String}

/-! ## The token -/

/-- **A call with escaped parameters is one call**, of the name without its modifiers, and its
parameters are the given ones without the blanks at their ends. They are the given ones exactly if no
blank stands there and they are not a single empty text, which is written like no parameters. -/
theorem ofText_writeEscaped (hd : d.TellsParameters) (hname : d.IsName name) (ps : List String) :
    ∃ a params, ofText d (d.writeEscaped name ps) = .ok [.literal a] ∧
      a.call = some ⟨String.ofList (name.toList.dropWhile d.isModifier), params⟩ ∧
      a.modifiers = name.toList.takeWhile d.isModifier ∧
      a.modifiers ++ a.value.toList = (d.writeEscaped name ps).toList ∧
      params = (if ps.map Text.trimmed = [""] then [] else ps.map Text.trimmed) ∧
      (params = ps ↔ ps ≠ [""] ∧ ∀ p ∈ ps, Text.trimmed p = p) := by
  obtain ⟨body, hread, hraw, hrest, hparams⟩ := CallBody.exists_read_joinEscaped hd ps
  have hscan := scan_plain_call (hname.fitAll _) hname.text_eq
    (by rw [Ne, String.toList_eq_nil_iff]; exact hname.ne_empty) (hd.sign d.opening (by simp))
    (Dialect.Stops.cons hd.operator.1 hd.operator.2 _) hread hrest
  refine ⟨d.call name.toList body, body.params, ?_, rfl, rfl, ?_, hparams, ?_⟩
  · rw [ofText_eq_ok_iff, Dialect.writeEscaped, String.toList_ofList]
    exact hscan
  · rw [Dialect.writeEscaped, String.toList_ofList, ← hraw]
    exact d.spellAtom_call name.toList body
  · rw [hparams]
    exact CallBody.trimmed_params_eq_iff ps

/-- Separators, containers, quotes and escape characters in parameters, an empty parameter, and a blank
that is not at an end. -/
theorem ofText_writeEscaped_signs : ∃ d : Dialect, d = { modifiers := .ofList ['!'] } ∧
    d.TellsParameters ∧ d.IsName "!f" ∧
    d.writeEscaped "!f" ["", "a,b)", "\\ '("] = "!f(,\\a\\,\\b\\),\\\\\\ \\'\\()" ∧
    ∃ a, ofText d "!f(,\\a\\,\\b\\),\\\\\\ \\'\\()" = .ok [.literal a] ∧ a.modifiers = ['!'] ∧
      a.call = some ⟨"f", ["", "a,b)", "\\ '("]⟩ := by
  have hd : Dialect.TellsParameters { modifiers := .ofList ['!'] } := by decide
  have hname : Dialect.IsName { modifiers := .ofList ['!'] } "!f" := by decide
  obtain ⟨a, params, hscan, hcall, hmodifiers, -, -, hiff⟩ :=
    ofText_writeEscaped hd hname ["", "a,b)", "\\ '("]
  have hwrite : Dialect.writeEscaped { modifiers := .ofList ['!'] } "!f" ["", "a,b)", "\\ '("] =
      "!f(,\\a\\,\\b\\),\\\\\\ \\'\\()" := by decide
  rw [hiff.2 ⟨by decide, by decide⟩] at hcall
  rw [hwrite] at hscan
  exact ⟨_, rfl, hd, hname, hwrite, a, hscan, hmodifiers, hcall⟩

/-- An escaped blank at the end of a parameter is lost. -/
theorem not_ofText_writeEscaped_blank : ({} : Dialect).TellsParameters ∧ ({} : Dialect).IsName "f" ∧
    ["a "] ≠ [""] ∧ ¬ ∃ a call, ofText {} (({} : Dialect).writeEscaped "f" ["a "]) =
      .ok [.literal a] ∧ a.call = some call ∧ call.params = ["a "] := by
  have hwrite : ({} : Dialect).writeEscaped "f" ["a "] = "f(\\a\\ )" := by decide
  have hscan : ofText {} "f(\\a\\ )" =
      .ok [.literal ⟨[], "f(\\a\\ )", some ⟨"f", ["a"]⟩⟩] := by cbv
  refine ⟨by decide, by decide, by decide, ?_⟩
  rintro ⟨a, call, h, hcall, hparams⟩
  rw [hwrite, hscan] at h
  cases h
  cases hcall
  exact absurd hparams (by decide)

end Token

end PositiveLogic
