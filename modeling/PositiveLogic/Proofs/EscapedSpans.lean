import Mathlib.Data.Nat.PSub
import PositiveLogic.Proofs.ByteSlices
import PositiveLogic.Proofs.Reaching

/-!
# Trimming by the span of the escaped characters

A `Buffer` marks each of its characters. Less is enough for its answers: `SpanBuffer` keeps the
characters as one text and, of the escaped ones, only the span from the first to the last, as two
offsets in bytes. What it gives is cut out of the text between two offsets (`SpanBuffer.cuts?`); a cut
inside a character, behind the end or backwards gives nothing (`Text.slice?`).

* `SpanBuffer.Holds`: what text and span say of the marks. Every use of the two buffers keeps it
  (`SpanBuffer.Holds.use`), so it holds after every history of uses (`SpanBuffer.exists_after`).
* `SpanBuffer.Holds.exists_cuts`: the text is cut at the edges of what trimming keeps of the marks.
* `SpanBuffer.trims_unescaped_blanks`: so where blanks do not end a literal, exactly the unescaped
  blanks at the two ends are dropped, whatever was pushed.
* `Token.Moves.exists_spanBuffer`: in every dialect, and wherever the scanner comes to in a text, such a
  buffer answers like the one that it holds.
-/

namespace PositiveLogic

/-! ## Buffers with a span -/

/-- A buffer that keeps its characters as one text, and of the escaped ones the span: the offset of the
first one and the offset behind the last one, in bytes. -/
structure SpanBuffer where
  raw : String
  escaped : Option (Nat × Nat)
  deriving DecidableEq

/-- The offsets at which a text is cut to trim it. -/
structure Cuts where
  /-- The end of what is trimmed at its front. -/
  first : Nat
  /-- The start of what is trimmed at its back. -/
  last : Nat
  /-- The start of what is left. -/
  start : Nat
  /-- The end of what is left. -/
  stop : Nat
  deriving DecidableEq

/-- All four offsets. -/
def Cuts.offsets (c : Cuts) : List Nat := [c.first, c.last, c.start, c.stop]

namespace SpanBuffer

/-- The buffer without characters. -/
def empty : SpanBuffer := ⟨"", none⟩

/-- Add a character as it stands. -/
def push (b : SpanBuffer) (c : Char) : SpanBuffer :=
  { b with raw := b.raw.push c }

/-- Add a character that was escaped: the span ends behind it. -/
def pushEscaped (b : SpanBuffer) (c : Char) : SpanBuffer where
  raw := b.raw.push c
  escaped :=
    match b.escaped with
    | some (first, _) => some (first, (b.raw.push c).utf8ByteSize)
    | none => some (b.raw.utf8ByteSize, (b.raw.push c).utf8ByteSize)

/-- Where the text is cut: what stands in front of the span is trimmed at its front, and what stands
behind it at its back. Without a span each of the two is the whole text, and the end of what is left may
come to stand in front of its start. -/
def cuts? (b : SpanBuffer) : Option Cuts := do
  let (first, last) := b.escaped.getD (b.raw.utf8ByteSize, 0)
  let front ← Text.slice? b.raw 0 first
  let back ← Text.slice? b.raw last b.raw.utf8ByteSize
  let start ← first.psub (Text.trimStart front).utf8ByteSize
  return ⟨first, last, start, max (last + (Text.trimEnd back).utf8ByteSize) start⟩

/-- Take the text, and leave an empty buffer. Nothing is trimmed where blanks end a literal. -/
def take? (d : Dialect) (b : SpanBuffer) : Option (String × SpanBuffer) :=
  if d.splitOnBlank then some (b.raw, empty)
  else do
    let cuts ← b.cuts?
    let text ← Text.slice? b.raw cuts.start cuts.stop
    return (text, empty)

/-- Whether no literal has begun. -/
def atBoundary (d : Dialect) (b : SpanBuffer) : Bool :=
  if d.splitOnBlank then b.raw.isEmpty else b.escaped.isNone && (Text.trim b.raw.toList).isEmpty

end SpanBuffer

namespace Buffer

/-- What a scanner does with its buffer. -/
inductive Use
  | push (c : Char)
  | pushEscaped (c : Char)
  | take
  | clear
  deriving DecidableEq

/-- A buffer after one use. -/
def use (b : Buffer) : Use → Buffer
  | .push c => b.push c
  | .pushEscaped c => b.pushEscaped c
  | .take => empty
  | .clear => empty

/-- The empty buffer after some uses: it has the marks that were pushed since it was last emptied. -/
def after (us : List Use) : Buffer := us.foldl use empty

/-- The use of a buffer that adds a mark. -/
def pushing (m : Mark) : Use := if m.escaped then .pushEscaped m.char else .push m.char

theorem foldl_pushing (b : Buffer) (ms : List Mark) : (ms.map pushing).foldl use b = b.extend ms := by
  induction ms generalizing b with
  | nil => rfl
  | cons m ms ih =>
    obtain ⟨c, escaped⟩ := m
    rw [List.map_cons, List.foldl_cons, ih]
    cases escaped with
    | true => exact extend_pushEscaped b c ms
    | false => exact extend_push b c ms

end Buffer

namespace SpanBuffer

variable {d : Dialect} {b : SpanBuffer} {b' : Buffer} {ms front mid back : List Mark}
  {us : List Buffer.Use} {c : Cuts} {t : String}

/-- A buffer after one use. -/
def use? (d : Dialect) (b : SpanBuffer) : Buffer.Use → Option SpanBuffer
  | .push c => some (b.push c)
  | .pushEscaped c => some (b.pushEscaped c)
  | .take => (b.take? d).map Prod.snd
  | .clear => some empty

/-- The empty buffer after some uses. -/
def after? (d : Dialect) (us : List Buffer.Use) : Option SpanBuffer := us.foldlM (use? d) empty

/-! ## What a buffer holds -/

/-- The span of the escaped marks: none, or from the first to the last of them. -/
inductive IsSpan : List Mark → Option (Nat × Nat) → Prop
  | none {ms : List Mark} (hms : ∀ m ∈ ms, m.escaped = false) : IsSpan ms none
  | some {front mid back : List Mark} (hfront : ∀ m ∈ front, m.escaped = false)
      (hback : ∀ m ∈ back, m.escaped = false) (hhead : ∃ m, mid.head? = some m ∧ m.escaped = true)
      (hlast : ∃ m, mid.getLast? = some m ∧ m.escaped = true) :
      IsSpan (front ++ mid ++ back) (some (Mark.size front, Mark.size (front ++ mid)))

/-- A buffer holds marks: their characters are its text, and its span is theirs. -/
structure Holds (b : SpanBuffer) (ms : List Mark) : Prop where
  raw_eq : b.raw = Mark.textOf ms
  span : IsSpan ms b.escaped

namespace Holds

theorem empty : Holds empty [] := ⟨rfl, .none nofun⟩

theorem push (h : Holds b ms) (c : Char) : Holds (b.push c) (ms ++ [⟨c, false⟩]) := by
  obtain ⟨raw, escaped⟩ := b
  obtain ⟨rfl, hspan⟩ := h
  have hconcat {ns : List Mark} (hns : ∀ m ∈ ns, m.escaped = false) :
      ∀ m ∈ ns ++ [⟨c, false⟩], m.escaped = false :=
    List.forall_mem_append.2 ⟨hns, List.forall_mem_singleton.2 rfl⟩
  refine ⟨(Mark.textOf_concat ms ⟨c, false⟩).symm, ?_⟩
  cases hspan with
  | none hms => exact .none (hconcat hms)
  | some hfront hback hhead hlast =>
    rw [List.append_assoc]
    exact .some hfront (hconcat hback) hhead hlast

theorem pushEscaped (h : Holds b ms) (c : Char) : Holds (b.pushEscaped c) (ms ++ [⟨c, true⟩]) := by
  obtain ⟨raw, escaped⟩ := b
  obtain ⟨rfl, hspan⟩ := h
  refine ⟨(Mark.textOf_concat ms ⟨c, true⟩).symm, ?_⟩
  rw [SpanBuffer.pushEscaped, ← Mark.textOf_concat ms ⟨c, true⟩]
  cases hspan with
  | none hms =>
    have := @IsSpan.some ms [⟨c, true⟩] [] hms nofun ⟨_, rfl, rfl⟩ ⟨_, rfl, rfl⟩
    rwa [List.append_nil] at this
  | @some front mid back hfront hback hhead hlast =>
    -- the span reaches over what stood behind it
    obtain ⟨m, hm, hescaped⟩ := hhead
    have := @IsSpan.some front (mid ++ back ++ [⟨c, true⟩]) [] hfront nofun
      ⟨m, by simp [hm], hescaped⟩ ⟨_, List.getLast?_concat, rfl⟩
    rwa [List.append_nil, ← List.append_assoc, ← List.append_assoc] at this

end Holds

/-! ## The cuts -/

theorem cuts?_eq {first last start : Nat} {front back : String}
    (hspan : b.escaped.getD (b.raw.utf8ByteSize, 0) = (first, last))
    (hfront : Text.slice? b.raw 0 first = some front)
    (hback : Text.slice? b.raw last b.raw.utf8ByteSize = some back)
    (hstart : start + (Text.trimStart front).utf8ByteSize = first) :
    b.cuts? = some ⟨first, last, start, max (last + (Text.trimEnd back).utf8ByteSize) start⟩ := by
  rw [cuts?, hspan]
  dsimp only
  rw [hfront, Option.bind_eq_bind, Option.bind_some, hback, Option.bind_eq_bind, Option.bind_some,
    Nat.psub_eq_some.2 hstart]
  rfl

theorem size_takeWhile_add (h : ∀ m ∈ ms, m.escaped = false) :
    Mark.size (ms.takeWhile Mark.isSlack) + (Text.trimStart (Mark.textOf ms)).utf8ByteSize =
      Mark.size ms := by
  rw [Mark.trimStart_textOf h, ← Mark.size, ← Mark.size_append, List.takeWhile_append_dropWhile]

/-- A buffer cuts its text around `kept`, behind `front`. -/
def CutsAround (b : SpanBuffer) (front kept : List Mark) : Prop :=
  ∃ c, b.cuts? = some c ∧ c.start = Mark.size front ∧ c.stop = Mark.size (front ++ kept)

/-- Without a span the text is trimmed once at its front and once at its back. -/
theorem cutsAround_none (hms : ∀ m ∈ ms, m.escaped = false) :
    CutsAround ⟨Mark.textOf ms, none⟩ (ms.takeWhile Mark.isSlack) (Text.trimBy Mark.isSlack ms) := by
  have hwhole : Text.slice? (Mark.textOf ms) 0 (Mark.size ms) = some (Mark.textOf ms) :=
    Mark.slice?_textOf [] ms [] (List.append_nil ms).symm
  refine ⟨_, cuts?_eq rfl hwhole hwhole (size_takeWhile_add hms), rfl, ?_⟩
  dsimp only
  rw [Mark.trimEnd_textOf hms, ← Mark.size, Nat.zero_add]
  by_cases hkept : Text.trimBy Mark.isSlack ms = []
  · -- both trims take everything, so the end found from the back is 0 and the start counts
    have hall : ∀ m ∈ ms, m.isSlack = true := List.all_eq_true.1 (Text.trimBy_eq_nil_iff.1 hkept)
    rw [List.rdropWhile_eq_nil_iff.2 hall, hkept, List.append_nil, Mark.size_nil, Nat.zero_max]
  · rw [(Text.trimming_trimBy Mark.isSlack ms).rdropWhile_eq hkept]
    exact Nat.max_eq_left (by simp)

/-- Two blanks, of one byte and of three: the end found from the back is 0. -/
example : ((empty.push ' ').push '\u3000').cuts? = some ⟨4, 0, 4, 4⟩ := by decide

/-- With a span the text is trimmed on its two sides. -/
theorem cutsAround_some (hfront : ∀ m ∈ front, m.escaped = false)
    (hback : ∀ m ∈ back, m.escaped = false) :
    CutsAround ⟨Mark.textOf (front ++ mid ++ back), some (Mark.size front, Mark.size (front ++ mid))⟩
      (front.takeWhile Mark.isSlack)
      (front.dropWhile Mark.isSlack ++ mid ++ back.rdropWhile Mark.isSlack) := by
  have hbefore : Text.slice? (Mark.textOf (front ++ mid ++ back)) 0 (Mark.size front) =
      some (Mark.textOf front) :=
    Mark.slice?_textOf [] front (mid ++ back) (List.append_assoc front mid back)
  have hbehind : Text.slice? (Mark.textOf (front ++ mid ++ back)) (Mark.size (front ++ mid))
      (Mark.size (front ++ mid ++ back)) = some (Mark.textOf back) :=
    Mark.slice?_textOf (front ++ mid) back [] (List.append_nil _).symm
  have hsize := congrArg Mark.size (List.takeWhile_append_dropWhile (p := Mark.isSlack) (l := front))
  refine ⟨_, cuts?_eq rfl hbefore hbehind (size_takeWhile_add hfront), rfl, ?_⟩
  dsimp only
  rw [Mark.trimEnd_textOf hback, ← Mark.size]
  simp only [Mark.size_append] at hsize ⊢
  omega

/-- What is kept around a span: the span ends in escaped marks, and on its two sides it was trimmed. -/
theorem trimming_around (hhead : ∃ m, mid.head? = some m ∧ m.escaped = true)
    (hlast : ∃ m, mid.getLast? = some m ∧ m.escaped = true) :
    Text.Trimming Mark.isSlack (front ++ mid ++ back) (front.takeWhile Mark.isSlack)
      (front.dropWhile Mark.isSlack ++ mid ++ back.rdropWhile Mark.isSlack)
      (back.rtakeWhile Mark.isSlack) where
  eq_append := by
    conv_lhs => rw [← List.takeWhile_append_dropWhile (p := Mark.isSlack) (l := front),
      ← List.rdropWhile_append_rtakeWhile (p := Mark.isSlack) (l := back)]
    simp only [List.append_assoc]
  of_mem_front := fun _ => List.mem_takeWhile_imp
  of_mem_back := fun _ => List.mem_rtakeWhile_imp
  head_kept := fun a ha => by
    obtain ⟨m, hm, hescaped⟩ := hhead
    have hnot := List.head?_dropWhile_not Mark.isSlack front
    rw [List.head?_append, List.head?_append, hm] at ha
    cases hrest : (front.dropWhile Mark.isSlack).head? with
    | none =>
      rw [hrest] at ha
      cases ha
      exact Mark.isSlack_of_escaped hescaped
    | some x =>
      rw [hrest] at ha hnot
      cases ha
      simpa using hnot
  last_kept := fun a ha => by
    obtain ⟨m, hm, hescaped⟩ := hlast
    by_cases hrest : back.rdropWhile Mark.isSlack = []
    · rw [hrest, List.append_nil, List.getLast?_append, hm] at ha
      cases ha
      exact Mark.isSlack_of_escaped hescaped
    · rw [List.getLast?_append, List.getLast?_eq_some_getLast hrest] at ha
      cases ha
      exact Bool.eq_false_iff.2 (List.rdropWhile_last_not _ _ hrest)

/-- **The text is cut at the edges of what trimming keeps of the marks.** -/
theorem Holds.exists_cuts (h : Holds b ms) : ∃ front kept back c,
    Text.Trimming Mark.isSlack ms front kept back ∧ b.cuts? = some c ∧
      Text.slice? b.raw c.start c.stop = some (Mark.textOf kept) := by
  obtain ⟨raw, escaped⟩ := b
  obtain ⟨rfl, hspan⟩ := h
  obtain ⟨front, kept, back, htrimming, c, hc, hstart, hstop⟩ : ∃ front kept back,
      Text.Trimming Mark.isSlack ms front kept back ∧
        CutsAround ⟨Mark.textOf ms, escaped⟩ front kept := by
    cases hspan with
    | none hms => exact ⟨_, _, _, Text.trimming_trimBy _ _, cutsAround_none hms⟩
    | some hfront hback hhead hlast =>
      exact ⟨_, _, _, trimming_around hhead hlast, cutsAround_some hfront hback⟩
  refine ⟨front, kept, back, c, htrimming, hc, ?_⟩
  rw [hstart, hstop]
  exact Mark.slice?_textOf front kept back htrimming.eq_append

/-- A text is cut at ends of its characters, and never backwards. -/
theorem valid_of_cuts? (hc : b.cuts? = some c) (ht : Text.slice? b.raw c.start c.stop = some t) :
    c.start ≤ c.stop ∧ ∀ n ∈ c.offsets, (⟨n⟩ : String.Pos.Raw).IsValid b.raw := by
  obtain ⟨hstart, hstop, hle⟩ := Text.valid_of_slice? ht
  simp only [cuts?, Option.bind_eq_bind, Option.bind_eq_some_iff, Option.pure_def,
    Option.some.injEq] at hc
  obtain ⟨front, hfront, back, hback, start, -, rfl⟩ := hc
  obtain ⟨-, hfirst, -⟩ := Text.valid_of_slice? hfront
  obtain ⟨hlast, -, -⟩ := Text.valid_of_slice? hback
  exact ⟨hle, by simp [Cuts.offsets, hfirst, hlast, hstart, hstop]⟩

/-! ## The answers -/

theorem take?_eq (hd : d.splitOnBlank = false) (hc : b.cuts? = some c)
    (ht : Text.slice? b.raw c.start c.stop = some t) : b.take? d = some (t, empty) := by
  rw [take?, if_neg (by simp [hd]), hc, Option.bind_eq_bind, Option.bind_some, ht]
  rfl

/-- Where blanks do not end a literal, none has begun as long as all marks are left out. -/
theorem Holds.atBoundary_eq (h : Holds b ms) (hd : d.splitOnBlank = false) :
    b.atBoundary d = ms.all Mark.isSlack := by
  obtain ⟨raw, escaped⟩ := b
  obtain ⟨rfl, hspan⟩ := h
  rw [atBoundary, if_neg (by simp [hd])]
  cases hspan with
  | none hms =>
    rw [Option.isNone_none, Bool.true_and, Bool.eq_iff_iff, List.isEmpty_iff, Text.trim,
      Text.trimBy_eq_nil_iff, Mark.textOf, String.toList_ofList, List.all_map, List.all_eq_true,
      List.all_eq_true]
    exact forall₂_congr fun m hm => by rw [Mark.isSlack_of_not_escaped (hms m hm)]; rfl
  | @some front mid back hfront hback hhead hlast =>
    -- the span starts with an escaped character
    obtain ⟨m, hm, hescaped⟩ := hhead
    rw [Option.isNone_some, Bool.false_and, eq_comm, List.all_eq_false]
    exact ⟨m, by simp [List.mem_of_mem_head? hm], by simp [Mark.isSlack_of_escaped hescaped]⟩

/-- **A buffer that holds the marks of another one answers like it.** Where blanks end a literal no
mark may be left out. -/
theorem Holds.answers (h : Holds b b'.marks)
    (hb' : d.splitOnBlank = true → ∀ m ∈ b'.marks, m.isSlack = false) :
    b.take? d = some (String.ofList b'.text, SpanBuffer.empty) ∧ b.atBoundary d = b'.isVacant := by
  cases hd : d.splitOnBlank with
  | false =>
    obtain ⟨front, kept, back, c, htrimming, hc, ht⟩ := h.exists_cuts
    refine ⟨?_, by rw [h.atBoundary_eq hd, b'.isVacant_eq]⟩
    rw [take?_eq hd hc ht, Buffer.text, htrimming.trimBy_eq, Mark.textOf]
  | true =>
    have htext := Buffer.text_eq_of_not_slack (hb' hd)
    rw [take?, if_pos hd, atBoundary, if_pos hd, h.raw_eq, htext]
    refine ⟨rfl, ?_⟩
    rw [Bool.eq_iff_iff, String.isEmpty_iff, Mark.textOf_eq_empty, ← b'.text_eq_nil_iff, htext,
      List.map_eq_nil_iff]

/-! ## Histories of uses -/

theorem Holds.exists_take (h : Holds b ms) (d : Dialect) :
    ∃ t, b.take? d = some (t, SpanBuffer.empty) := by
  cases hd : d.splitOnBlank with
  | true => exact ⟨b.raw, if_pos hd⟩
  | false =>
    obtain ⟨_, _, _, _, _, hc, ht⟩ := h.exists_cuts
    exact ⟨_, take?_eq hd hc ht⟩

/-- **A use of the two buffers** goes well, and the one still holds the marks of the other. -/
theorem Holds.use (h : Holds b b'.marks) (d : Dialect) (u : Buffer.Use) :
    ∃ s, b.use? d u = some s ∧ Holds s (b'.use u).marks := by
  cases u with
  | push c =>
    refine ⟨_, rfl, ?_⟩
    rw [Buffer.use, Buffer.marks_push]
    exact h.push c
  | pushEscaped c =>
    refine ⟨_, rfl, ?_⟩
    rw [Buffer.use, Buffer.marks_pushEscaped]
    exact h.pushEscaped c
  | take =>
    obtain ⟨t, ht⟩ := h.exists_take d
    refine ⟨SpanBuffer.empty, ?_, .empty⟩
    rw [use?, ht]
    rfl
  | clear => exact ⟨_, rfl, .empty⟩

theorem Holds.uses (h : Holds b b'.marks) (d : Dialect) (us : List Buffer.Use) :
    ∃ s, us.foldlM (use? d) b = some s ∧ Holds s (us.foldl Buffer.use b').marks := by
  induction us generalizing b b' with
  | nil => exact ⟨b, rfl, h⟩
  | cons u us ih =>
    obtain ⟨s, hs, hholds⟩ := h.use d u
    rw [List.foldlM_cons, hs, List.foldl_cons]
    exact ih hholds

/-- **The two buffers after any history of uses.** -/
theorem exists_after (d : Dialect) (us : List Buffer.Use) :
    ∃ b, after? d us = some b ∧ Holds b (Buffer.after us).marks :=
  Holds.empty.uses d us

/-- **Trimming drops exactly the unescaped blanks at the two ends.** Where blanks do not end a literal,
after any history of uses a buffer has the text that was pushed since it was last emptied. What is taken
of it is this text without the longest run of unescaped blanks at each end. The text is cut at ends of
its characters and never backwards, and the buffer is left empty, without a span. No literal has begun
exactly if nothing would be taken. So the buffer answers like one that marks all characters. -/
theorem trims_unescaped_blanks (hd : d.splitOnBlank = false) (us : List Buffer.Use) :
    ∃ b front kept back, after? d us = some b ∧ b.raw = Mark.textOf (Buffer.after us).marks ∧
      Text.Trimming Mark.isSlack (Buffer.after us).marks front kept back ∧
      b.take? d = some (Mark.textOf kept, ⟨"", none⟩) ∧
      (∃ c, b.cuts? = some c ∧ c.start ≤ c.stop ∧
        ∀ n ∈ c.offsets, (⟨n⟩ : String.Pos.Raw).IsValid b.raw) ∧
      (b.atBoundary d = true ↔ Mark.textOf kept = "") ∧
      (Buffer.after us).text = kept.map Mark.char ∧
      (Buffer.after us).isVacant = b.atBoundary d := by
  obtain ⟨b, hb, hholds⟩ := exists_after d us
  obtain ⟨front, kept, back, c, htrimming, hc, ht⟩ := hholds.exists_cuts
  have htext : (Buffer.after us).text = kept.map Mark.char := by
    rw [Buffer.text, htrimming.trimBy_eq]
  obtain ⟨-, hboundary⟩ := hholds.answers (d := d) (by simp [hd])
  refine ⟨b, front, kept, back, hb, hholds.raw_eq, htrimming, take?_eq hd hc ht,
    ⟨c, hc, valid_of_cuts? hc ht⟩, ?_, htext, hboundary.symm⟩
  rw [hboundary, ← Buffer.text_eq_nil_iff, htext, List.map_eq_nil_iff, Mark.textOf_eq_empty]

/-- Blanks of one and of three bytes in front of the span, an unescaped blank inside it, and blanks of
two bytes and of one behind it. What was taken before has no effect. -/
theorem trims_unescaped_blanks_wide : ∃ (d : Dialect) (us : List Buffer.Use) (b : SpanBuffer) (c : Cuts),
    d.splitOnBlank = false ∧
    us = [.pushEscaped 'x', .take, .push ' ', .push '\u3000', .pushEscaped ' ', .push ' ', .push '😀',
      .pushEscaped '\u2003', .push '\u00a0', .push ' '] ∧
    after? d us = some b ∧ b.take? d = some ("  😀\u2003", ⟨"", none⟩) ∧ b.cuts? = some c ∧
    c.start ≤ c.stop ∧ (∀ n ∈ c.offsets, (⟨n⟩ : String.Pos.Raw).IsValid b.raw) ∧
    b.atBoundary d = false := by
  let us : List Buffer.Use := [.pushEscaped 'x', .take, .push ' ', .push '\u3000', .pushEscaped ' ',
    .push ' ', .push '😀', .pushEscaped '\u2003', .push '\u00a0', .push ' ']
  obtain ⟨b, front, kept, back, hb, -, -, htake, ⟨c, hc, hle, hvalid⟩, -, htext, hvacant⟩ :=
    trims_unescaped_blanks (d := { splitOnBlank := false }) rfl us
  have hkept : Mark.textOf kept = "  😀\u2003" := by
    rw [Mark.textOf, ← htext]
    rfl
  rw [hkept] at htake
  exact ⟨_, us, b, c, rfl, rfl, hb, htake, hc, hle, hvalid, hvacant.symm.trans (by decide)⟩

end SpanBuffer

/-! ## The buffer of the scanner -/

namespace Token

variable {d : Dialect} {b : Buffer} {cs cs' : List Char} {ts : List (Token Atom)}

/-- **Wherever the scanner comes to in a text**, a buffer with a span that was used like its own gives the
same text, and says the same of whether a literal has begun. -/
theorem Moves.exists_spanBuffer (h : Moves d .empty cs ts b cs') : ∃ us s,
    b = Buffer.after us ∧ SpanBuffer.after? d us = some s ∧
      s.take? d = some (String.ofList b.text, .empty) ∧ s.atBoundary d = b.isVacant := by
  obtain ⟨head, -, hfit, rfl⟩ := h.exists_head
  have hafter := Buffer.foldl_pushing .empty head
  obtain ⟨s, hs, hholds⟩ := SpanBuffer.exists_after d (head.map Buffer.pushing)
  rw [Buffer.after, hafter] at hholds
  refine ⟨_, s, hafter.symm, hs, hholds.answers fun hd => ?_⟩
  rw [Buffer.marks_extend, Buffer.marks_empty, List.nil_append]
  exact hfit.not_slack hd

end Token

end PositiveLogic
