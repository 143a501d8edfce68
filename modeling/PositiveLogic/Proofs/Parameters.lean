import PositiveLogic.Proofs.Composition
import PositiveLogic.Proofs.Marks
import PositiveLogic.Proofs.Reaching

/-!
# The parameters of a call, found in two passes

`CallBody.read` goes through the parameters of a call once, with the pairs that are open, the piece
that has begun and the pieces in front of it. The same is found in two passes over the marks of the
text: first the closing character at which the pairs balance, then the separators outside of all pairs.

* `Dialect.Encloses`: a text from an opening character to the first closing character at which the two
  balance. Exactly where such a text stands the parameters of a call can be read
  (`CallBody.exists_read_iff`).
* `Dialect.parameters`: what stands between the separators of level zero, without the escapes and
  trimmed.
* `Token.ofText_call`: where a call of a reading stands in the text, and that its parts are found so.
-/

namespace PositiveLogic

namespace Dialect

variable {d : Dialect} {m : Mark} {ms : List Mark} {level : Int}

/-! ## Pairs -/

/-- What a mark adds to the number of pairs that are open. An escaped character adds nothing. -/
def weight (d : Dialect) (m : Mark) : Int :=
  if m = Mark.plain d.opening then 1 else if m = Mark.plain d.closing then -1 else 0

/-- The opening characters less the closing ones. -/
def excess (d : Dialect) : List Mark → Int
  | [] => 0
  | m :: ms => d.weight m + d.excess ms

@[simp] theorem excess_nil (d : Dialect) : d.excess [] = 0 := rfl

@[simp] theorem excess_cons (d : Dialect) (m : Mark) (ms : List Mark) :
    d.excess (m :: ms) = d.weight m + d.excess ms := rfl

theorem weight_opening (d : Dialect) : d.weight (Mark.plain d.opening) = 1 := if_pos rfl

theorem weight_closing (h : d.closing ≠ d.opening) : d.weight (Mark.plain d.closing) = -1 := by
  rw [weight, if_neg fun he => h (congrArg Mark.char he), if_pos rfl]

theorem weight_escaped (d : Dialect) (c : Char) : d.weight ⟨c, true⟩ = 0 := by
  simp [weight, Mark.plain]

theorem weight_other {c : Char} (hopen : c ≠ d.opening) (hclose : c ≠ d.closing) :
    d.weight (Mark.plain c) = 0 := by
  rw [weight, if_neg fun he => hopen (congrArg Mark.char he),
    if_neg fun he => hclose (congrArg Mark.char he)]

/-- A text that runs from an opening character to the first closing character at which the unescaped
opening and closing characters balance, with the marks `ms` in between. -/
structure Encloses (d : Dialect) (raw : List Char) (ms : List Mark) : Prop where
  marks : Mark.ofText? raw = some (Mark.plain d.opening :: (ms ++ [Mark.plain d.closing]))
  balanced : d.excess (Mark.plain d.opening :: (ms ++ [Mark.plain d.closing])) = 0
  first : ∀ front, front <+: ms → d.excess (Mark.plain d.opening :: front) ≠ 0

/-! ## Pieces -/

/-- Marks, each with the number of pairs that are open in front of it. -/
def withLevels (d : Dialect) (level : Int) : List Mark → List (Mark × Int)
  | [] => []
  | m :: ms => (m, level) :: d.withLevels (level + d.weight m) ms

/-- The marks between the unescaped separators of level zero. -/
def pieces (d : Dialect) (level : Int) (ms : List Mark) : List (List Mark) :=
  ((d.withLevels level ms).splitOnP fun (m, level) =>
    m = Mark.plain d.separator ∧ level = 0).map (·.map Prod.fst)

/-- The parameters between the ends of a call: the pieces without their escapes, trimmed. A single
blank piece is no parameter. -/
def parameters (d : Dialect) (ms : List Mark) : List String :=
  let trimmed (p : List Mark) := String.ofList (Text.trim (p.map Mark.char))
  match d.pieces 0 ms with
  | [p] => if p.all fun m => Text.isBlank m.char then [] else [trimmed p]
  | ps => ps.map trimmed

theorem pieces_cons (d : Dialect) (level : Int) (m : Mark) (ms : List Mark) :
    d.pieces level (m :: ms) =
      if m = Mark.plain d.separator ∧ level = 0 then [] :: d.pieces (level + d.weight m) ms
      else (d.pieces (level + d.weight m) ms).modifyHead (m :: ·) := by
  rw [pieces, withLevels, List.splitOnP_cons_eq_if_modifyHead]
  by_cases h : m = Mark.plain d.separator ∧ level = 0
  · simp [h, pieces]
  · simp only [h, decide_false, Bool.false_eq_true, if_false, pieces]
    cases (d.withLevels (level + d.weight m) ms).splitOnP _ <;> rfl

end Dialect

namespace CallBody

open Dialect (weight_opening weight_closing weight_escaped weight_other pieces_cons)

variable {d : Dialect} {depth depth' : Nat} {b b' : CallBody} {m : Mark} {ms : List Mark}
  {cs raw rest : List Char}

/-! ## One pass and two passes -/

/-- What is read inside of `depth` inner pairs, told from the marks in front of the closing
character. -/
structure HasMarks (d : Dialect) (depth : Nat) (b : CallBody) (ms : List Mark) : Prop where
  raw : Mark.ofText? b.raw = some (ms ++ [Mark.plain d.closing])
  balanced : depth + 1 + d.excess (ms ++ [Mark.plain d.closing]) = 0
  first : ∀ front, front <+: ms → depth + 1 + d.excess front ≠ 0
  pieces : d.separator ≠ d.opening → d.separator ≠ d.closing →
    b.first :: b.others = (d.pieces depth ms).map (·.map Mark.char)

/-- One more mark in front: either it adds a character to the first piece, or it is a separator of
level zero. -/
theorem HasMarks.cons (h : HasMarks d depth' b' ms) (hdepth : (depth' : Int) = depth + d.weight m)
    (hraw : Mark.ofText? b.raw = (Mark.ofText? b'.raw).map (m :: ·))
    (hpieces : d.separator ≠ d.opening → d.separator ≠ d.closing → b.first :: b.others =
      if m = Mark.plain d.separator ∧ (depth : Int) = 0 then [] :: b'.first :: b'.others
      else (m.char :: b'.first) :: b'.others) : HasMarks d depth b (m :: ms) where
  raw := by rw [hraw, h.raw]; rfl
  balanced := by
    have := h.balanced
    rw [List.cons_append, Dialect.excess_cons]
    omega
  first front hfront := by
    cases front with
    | nil => simp; omega
    | cons x front =>
      obtain ⟨rfl, hprefix⟩ := List.cons_prefix_cons.1 hfront
      have := h.first front hprefix
      rw [Dialect.excess_cons]
      omega
  pieces hopen hclose := by
    have hrest := h.pieces hopen hclose
    rw [hpieces hopen hclose, pieces_cons, ← hdepth]
    split
    · rw [List.map_cons, ← hrest]
      rfl
    · cases hps : d.pieces depth' ms with
      | nil => rw [hps] at hrest; cases hrest
      | cons p ps =>
        rw [hps] at hrest
        obtain ⟨hp, hps⟩ := List.cons.inj hrest
        rw [hp, hps]
        rfl

/-- **What is read in one pass is told from the marks.** -/
theorem exists_hasMarks (h : read d depth cs = some b) : ∃ ms, HasMarks d depth b ms := by
  fun_induction read d depth cs generalizing b with
  | case1 => cases h
  | case2 => cases h
  | case3 depth e cs ih =>
    obtain ⟨b', hb', rfl⟩ := Option.map_eq_some_iff.1 h
    obtain ⟨ms, hms⟩ := ih hb'
    refine ⟨⟨e, true⟩ :: ms, hms.cons (by simp [weight_escaped]) (Mark.ofText?_escape e _) ?_⟩
    intro _ _
    simp [Mark.plain, keepEscaped]
  | case4 depth cs hopen ih =>
    obtain ⟨b', hb', rfl⟩ := Option.map_eq_some_iff.1 h
    obtain ⟨ms, hms⟩ := ih hb'
    refine ⟨Mark.plain d.opening :: ms,
      hms.cons (by simp [weight_opening]) (Mark.ofText?_cons hopen _) ?_⟩
    intro hne _
    simp [Mark.plain, keep, hne.symm]
  | case5 cs hclose hne =>
    cases h
    refine ⟨[], Mark.ofText?_cons hclose [], ?_, ?_, fun _ _ => rfl⟩
    · simp [weight_closing hne]
    · intro front hfront
      rw [List.prefix_nil.1 hfront]
      simp
  | case6 cs depth hclose hne ih =>
    obtain ⟨b', hb', rfl⟩ := Option.map_eq_some_iff.1 h
    obtain ⟨ms, hms⟩ := ih hb'
    refine ⟨Mark.plain d.closing :: ms,
      hms.cons (by simp [weight_closing hne]) (Mark.ofText?_cons hclose _) ?_⟩
    intro _ hsep
    simp [Mark.plain, keep, hsep.symm]
  | case7 depth c cs hc hopen hclose hsep ih =>
    obtain ⟨b', hb', rfl⟩ := Option.map_eq_some_iff.1 h
    obtain ⟨ms, hms⟩ := ih hb'
    refine ⟨Mark.plain c :: ms,
      hms.cons (by simp [weight_other hopen hclose]) (Mark.ofText?_cons hc _) ?_⟩
    intro _ _
    simp [cut, hsep.1, hsep.2]
  | case8 depth c cs hc hopen hclose hsep ih =>
    obtain ⟨b', hb', rfl⟩ := Option.map_eq_some_iff.1 h
    obtain ⟨ms, hms⟩ := ih hb'
    refine ⟨Mark.plain c :: ms,
      hms.cons (by simp [weight_other hopen hclose]) (Mark.ofText?_cons hc _) ?_⟩
    intro _ _
    have hnot : ¬ (Mark.plain c = Mark.plain d.separator ∧ (depth : Int) = 0) := fun h =>
      hsep ⟨congrArg Mark.char h.1, by omega⟩
    rw [if_neg hnot]
    rfl

/-- Where the marks up to a closing character balance there, and nowhere in front of it, the
parameters of a call are read. -/
theorem exists_read (hclose : d.closing ≠ escape)
    (hplain : ∀ m ∈ ms, m.escaped = false → m.char ≠ escape)
    (hbalanced : depth + 1 + d.excess (ms ++ [Mark.plain d.closing]) = 0)
    (hfirst : ∀ front, front <+: ms → depth + 1 + d.excess front ≠ 0) (rest : List Char) :
    ∃ b, read d depth (ms.flatMap Mark.spell ++ d.closing :: rest) = some b := by
  induction ms generalizing depth with
  | nil =>
    have hne : d.closing ≠ d.opening := by
      intro he
      rw [he, List.nil_append, Dialect.excess_cons, weight_opening, Dialect.excess_nil] at hbalanced
      omega
    rw [List.nil_append, Dialect.excess_cons, weight_closing hne, Dialect.excess_nil] at hbalanced
    obtain rfl : depth = 0 := by omega
    rw [List.flatMap_nil, List.nil_append, read.eq_def]
    simp only [if_neg hclose, if_neg hne, if_true]
    exact ⟨_, rfl⟩
  | cons m ms ih =>
    obtain ⟨hm, hplain⟩ := List.forall_mem_cons.1 hplain
    rw [List.cons_append, Dialect.excess_cons] at hbalanced
    -- the mark moves the reading to a depth at which the other marks are read
    have then_read : ∀ depth' : Nat, (depth' : Int) = depth + d.weight m →
        ∃ b, read d depth' (ms.flatMap Mark.spell ++ d.closing :: rest) = some b := by
      intro depth' hdepth
      refine ih hplain (by omega) fun front hfront => ?_
      have := hfirst (m :: front) (List.cons_prefix_cons.2 ⟨rfl, hfront⟩)
      rw [Dialect.excess_cons] at this
      omega
    rw [List.flatMap_cons, List.append_assoc]
    obtain ⟨c, escaped⟩ := m
    cases escaped with
    | true =>
      obtain ⟨b, hb⟩ := then_read depth (by simp [weight_escaped])
      exact ⟨_, (read_escape depth c _).trans (congrArg _ hb)⟩
    | false =>
      have hc : c ≠ escape := hm rfl
      by_cases hopen : c = d.opening
      · subst hopen
        have hweight : d.weight ⟨d.opening, false⟩ = 1 := weight_opening d
        obtain ⟨b, hb⟩ := then_read (depth + 1) (by rw [hweight]; rfl)
        exact ⟨_, (read_opening hc depth _).trans (congrArg _ hb)⟩
      by_cases hclosing : c = d.closing
      · subst hclosing
        have hweight : d.weight ⟨d.closing, false⟩ = -1 := weight_closing hopen
        have hzero := hfirst [⟨d.closing, false⟩] (List.prefix_append [_] ms)
        rw [Dialect.excess_cons, hweight, Dialect.excess_nil] at hzero
        obtain ⟨k, rfl⟩ : ∃ k, depth = k + 1 := ⟨depth - 1, by omega⟩
        obtain ⟨b, hb⟩ := then_read k (by rw [hweight]; omega)
        exact ⟨_, (read_closing_succ hc hopen k _).trans (congrArg _ hb)⟩
      · have hweight : d.weight ⟨c, false⟩ = 0 := weight_other hopen hclosing
        obtain ⟨b, hb⟩ := then_read depth (by rw [hweight, Int.add_zero])
        rw [Mark.spell, if_neg (by simp), List.cons_append, List.nil_append, read.eq_def]
        simp only [if_neg hc, if_neg hopen, if_neg hclosing, hb]
        split <;> exact ⟨_, rfl⟩

/-- The parameters are told from the pieces. -/
theorem params_of_pieces
    (h : b.first :: b.others = (d.pieces 0 ms).map (·.map Mark.char)) :
    b.params = d.parameters ms := by
  rw [params, h, Dialect.parameters]
  cases hps : d.pieces 0 ms with
  | nil => rw [hps] at h; cases h
  | cons p ps =>
    cases ps with
    | nil =>
      have hblank : Text.trim (p.map Mark.char) = [] ↔
          (p.all fun m => Text.isBlank m.char) = true := by
        rw [Text.trim, Text.trimBy_eq_nil_iff, List.all_map]
        rfl
      simp [hblank]
    | cons q ps => simp

/-- **What is read of a call is enclosed**, and its parameters are found in the second pass. -/
theorem encloses_of_read (hopen : d.opening ≠ escape) (h : read d 0 cs = some b) :
    ∃ ms, d.Encloses (d.opening :: b.raw) ms ∧
      (d.separator ≠ d.opening → d.separator ≠ d.closing → b.params = d.parameters ms) := by
  obtain ⟨ms, hms⟩ := exists_hasMarks h
  refine ⟨ms, ⟨?_, ?_, fun front hfront => ?_⟩, fun hsep hsep' => ?_⟩
  · rw [Mark.ofText?_cons hopen, hms.raw]
    rfl
  · have := hms.balanced
    rw [Dialect.excess_cons, weight_opening]
    omega
  · have := hms.first front hfront
    rw [Dialect.excess_cons, weight_opening]
    omega
  · exact params_of_pieces (hms.pieces hsep hsep')

/-- **Exactly an enclosed text is read as the parameters of a call.** -/
theorem exists_read_iff (hopen : d.opening ≠ escape) : (∃ b, read d 0 cs = some b) ↔
    ∃ raw ms, raw <+: d.opening :: cs ∧ d.Encloses raw ms := by
  constructor
  · rintro ⟨b, hb⟩
    obtain ⟨ms, hms, -⟩ := encloses_of_read hopen hb
    refine ⟨_, ms, ?_, hms⟩
    rw [(read_raw hb).1]
    exact List.prefix_append (d.opening :: b.raw) b.rest
  · rintro ⟨raw, ms, ⟨rest, hraw⟩, hms⟩
    obtain ⟨rfl, hplain⟩ := Mark.spell_of_ofText? hms.marks
    have hbalanced := hms.balanced
    rw [Dialect.excess_cons, weight_opening] at hbalanced
    have hcs : ms.flatMap Mark.spell ++ d.closing :: rest = cs := by
      simpa [Mark.spell, Mark.plain] using hraw
    rw [← hcs]
    refine exists_read (hplain (Mark.plain d.closing) (by simp) rfl)
      (fun m hm => hplain m (by simp [hm])) (by simpa using hbalanced) (fun front hfront => ?_) rest
    have := hms.first front hfront
    rw [Dialect.excess_cons, weight_opening] at this
    simpa using this

end CallBody

namespace Token

variable {d : Dialect} {b : Buffer} {ms : List Mark} {suffix : List Char}
  {ts₁ ts₂ : List (Token Atom)} {a : Atom} {call : Call}

/-! ## Calls of a reading -/

theorem FitAll.text_eq (h : FitAll d suffix .empty ms) : (Buffer.empty.extend ms).text =
    (if d.splitOnBlank then ms else Text.trimBy Mark.isSlack ms).map Mark.char := by
  have hmarks : (Buffer.empty.extend ms).marks = ms := by simp
  split
  · next hs =>
    rw [Buffer.text_eq_of_not_slack (by rw [hmarks]; exact h.not_slack hs), hmarks]
  · rw [Buffer.text, hmarks]

/-- **Where a call of a reading stands, and what its parts are.** The text falls into a front that is
read as the tokens in front of the call, the marks of the literal that has begun there, the enclosed
text of the parameters, and a rest that is read as the tokens behind. The literal, without its escapes
and, where blanks do not part literals, without the unescaped blanks at its ends, is the longest run of
modifiers and the name; the value is the name and the enclosed text as it stands; and the parameters
are those of the marks inside. -/
theorem ofText_call (hopen : d.separator ≠ d.opening) (hclose : d.separator ≠ d.closing)
    {s : String} (h : ofText d s = .ok (ts₁ ++ .literal a :: ts₂)) (hcall : a.call = some call) :
    ∃ front head raw ms rest, s.toList = front ++ head.flatMap Mark.spell ++ raw ++ rest ∧
      ofText d (String.ofList front) = .ok ts₁ ∧ ofText d (String.ofList rest) = .ok ts₂ ∧
      FitAll d (raw ++ rest) .empty head ∧ d.Encloses raw ms ∧
      a.modifiers ++ call.name.toList =
        (if d.splitOnBlank then head else Text.trimBy Mark.isSlack head).map Mark.char ∧
      a.modifiers = (a.modifiers ++ call.name.toList).takeWhile d.isModifier ∧
      a.value.toList = call.name.toList ++ raw ∧ call.params = d.parameters ms := by
  obtain ⟨b, cs, body, hmoves, hopens, hread, rfl, hscans⟩ :=
    (scan_eq_ok_iff_scans.1 (ofText_eq_ok_iff.1 h)).exists_call rfl (by simp [hcall])
  obtain ⟨head, hhead, hfit, rfl⟩ := hmoves.exists_head
  obtain ⟨ms, hencloses, hparams⟩ := CallBody.encloses_of_read hopens.sign.ne_escape hread
  obtain rfl := Option.some.inj hcall
  obtain ⟨front, hfront⟩ := hhead.rest_suffix
  have hraw : d.opening :: cs = d.opening :: body.raw ++ body.rest :=
    congrArg (d.opening :: ·) (CallBody.read_raw hread).1
  have hparts : (d.call (Buffer.empty.extend head).text body).modifiers ++
      ((Buffer.empty.extend head).text.dropWhile d.isModifier) =
        (Buffer.empty.extend head).text := List.takeWhile_append_dropWhile
  refine ⟨front, head, d.opening :: body.raw, ms, body.rest, ?_, ?_, ?_, ?_, hencloses, ?_, ?_, ?_,
    hparams hopen hclose⟩
  · rw [← hfront, hraw, List.append_assoc, List.append_assoc]
  · rw [ofText_eq_ok_iff, String.toList_ofList]
    rw [← hfront] at hhead
    exact hhead.scan_front
  · rw [ofText_eq_ok_iff, String.toList_ofList]
    exact scan_eq_ok_iff_scans.2 hscans
  · rwa [← hraw]
  · rw [String.toList_ofList, hparts, hfit.text_eq]
  · rw [String.toList_ofList, hparts]
    rfl
  · rw [Dialect.call, String.toList_ofList, String.toList_ofList]

/-- A call behind an operator, with a modifier, a name of two words, an escaped separator, a pair with
a separator inside and a blank parameter. -/
theorem ofText_call_nested : ∃ d : Dialect,
    d = { modifiers := .ofList ['!'], splitOnBlank := false } ∧
    ∃ front head raw ms rest,
      "a && !f g(x\\,y , (p,q), ) || b".toList =
        front ++ head.flatMap Mark.spell ++ raw ++ rest ∧
      ofText d (String.ofList front) = .ok [.literal ⟨[], "a", none⟩, .and] ∧
      ofText d (String.ofList rest) = .ok [.or, .literal ⟨[], "b", none⟩] ∧
      FitAll d (raw ++ rest) .empty head ∧ d.Encloses raw ms ∧
      "!f g".toList = (Text.trimBy Mark.isSlack head).map Mark.char ∧
      "f g(x\\,y , (p,q), )".toList = "f g".toList ++ raw ∧
      ["x,y", "(p,q)", ""] = d.parameters ms := by
  have hts : ofText { modifiers := .ofList ['!'], splitOnBlank := false }
      "a && !f g(x\\,y , (p,q), ) || b" = .ok ([.literal ⟨[], "a", none⟩, .and] ++
        .literal ⟨['!'], "f g(x\\,y , (p,q), )", some ⟨"f g", ["x,y", "(p,q)", ""]⟩⟩ ::
          [.or, .literal ⟨[], "b", none⟩]) := by cbv
  obtain ⟨front, head, raw, ms, rest, htext, hfront, hrest, hfit, hencloses, hhead, -, hvalue,
    hparams⟩ := ofText_call (by decide) (by decide) hts rfl
  exact ⟨_, rfl, front, head, raw, ms, rest, htext, hfront, hrest, hfit, hencloses, hhead, hvalue,
    hparams⟩

end Token

end PositiveLogic
