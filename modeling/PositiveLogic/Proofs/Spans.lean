import PositiveLogic.Token.CallBody
import PositiveLogic.Token.Quoted

/-!
# Quoted literals and the parameters of calls in a longer text

Both end at their own closing character, so what follows has no say in them (`Quoted.read_append`,
`CallBody.read_append`). A quoted text is read back as it was (`Quoted.read_write`), and so are the
parameters of a call from their raw text (`CallBody.read_raw`).
-/

namespace PositiveLogic

namespace Quoted

variable {quote : Char} {cs text rest : List Char}

theorem keep_ok (c : Char) (text rest : List Char) :
    keep c (.ok (text, rest)) = .ok (c :: text, rest) := rfl

/-- What is read up to the closing quote is read so in front of any other rest. -/
theorem read_raw (h : read quote cs = .ok (text, rest)) :
    ∃ raw, cs = raw ++ rest ∧ ∀ rest', read quote (raw ++ rest') = .ok (text, rest') := by
  fun_induction read quote cs generalizing text with
  | case1 => cases h
  | case2 => cases h
  | case3 e cs ih =>
    obtain ⟨t, ht, rfl⟩ := keep_eq_ok_iff.1 h
    obtain ⟨raw, rfl, hread⟩ := ih ht
    refine ⟨escape :: e :: raw, rfl, fun rest' => ?_⟩
    rw [List.cons_append, List.cons_append, read, if_pos rfl, hread, keep_ok]
  | case4 cs hne =>
    cases h
    refine ⟨[quote], rfl, fun rest' => ?_⟩
    rw [List.cons_append, read.eq_def]
    simp only [if_neg hne, if_true, List.nil_append]
  | case5 c cs hne hquote ih =>
    obtain ⟨t, ht, rfl⟩ := keep_eq_ok_iff.1 h
    obtain ⟨raw, rfl, hread⟩ := ih ht
    refine ⟨c :: raw, rfl, fun rest' => ?_⟩
    rw [List.cons_append, read.eq_def]
    simp only [if_neg hne, if_neg hquote, hread, keep_ok]

/-- What follows a quoted literal has no say in it. -/
theorem read_append (suffix : List Char) (h : read quote cs = .ok (text, rest)) :
    read quote (cs ++ suffix) = .ok (text, rest ++ suffix) := by
  obtain ⟨raw, rfl, hread⟩ := read_raw h
  rw [List.append_assoc, hread]

theorem rest_suffix (h : read quote cs = .ok (text, rest)) : rest <:+ cs := by
  obtain ⟨raw, rfl, -⟩ := read_raw h
  exact List.suffix_append raw rest

/-- **A text between quotes is read back.** -/
theorem read_write (hquote : quote ≠ escape) (text rest : List Char) :
    read quote (text.flatMap (writeChar quote) ++ quote :: rest) = .ok (text, rest) := by
  induction text with
  | nil =>
    rw [List.flatMap_nil, List.nil_append, read.eq_def]
    simp only [if_neg hquote, if_true]
  | cons c text ih =>
    rw [List.flatMap_cons, List.append_assoc]
    by_cases hc : c = quote ∨ c = escape
    · rw [writeChar, if_pos hc, List.cons_append, List.cons_append, List.nil_append, read,
        if_pos rfl, ih, keep_ok]
    · rw [writeChar, if_neg hc, List.cons_append, List.nil_append, read.eq_def]
      simp only [if_neg fun h => hc (Or.inr h), if_neg fun h => hc (Or.inl h), ih, keep_ok]

end Quoted

namespace CallBody

variable {d : Dialect} {depth : Nat} {cs : List Char} {b b' : CallBody}

/-! ## One character -/

theorem read_escape (depth : Nat) (e : Char) (cs : List Char) :
    read d depth (escape :: e :: cs) = (read d depth cs).map (keepEscaped e) := by
  rw [read.eq_def]
  simp only [if_true]

theorem read_opening (hopen : d.opening ≠ escape) (depth : Nat) (cs : List Char) :
    read d depth (d.opening :: cs) = (read d (depth + 1) cs).map (keep d.opening) := by
  rw [read.eq_def]
  simp only [if_neg hopen, if_true]

theorem read_closing_succ (hclose : d.closing ≠ escape) (hne : d.closing ≠ d.opening)
    (depth : Nat) (cs : List Char) :
    read d (depth + 1) (d.closing :: cs) = (read d depth cs).map (keep d.closing) := by
  rw [read.eq_def]
  simp only [if_neg hclose, if_neg hne, if_true]

theorem read_other {c : Char} (hc : c ≠ escape) (hopen : c ≠ d.opening) (hclose : c ≠ d.closing)
    (h : read d depth (c :: cs) = some b) :
    ∃ b', read d depth cs = some b' ∧ b.raw = c :: b'.raw ∧ b.rest = b'.rest := by
  rw [read.eq_def] at h
  simp only [if_neg hc, if_neg hopen, if_neg hclose] at h
  split at h
  · obtain ⟨b', hb', rfl⟩ := Option.map_eq_some_iff.1 h
    exact ⟨b', hb', rfl, rfl⟩
  · obtain ⟨b', hb', rfl⟩ := Option.map_eq_some_iff.1 h
    exact ⟨b', hb', rfl, rfl⟩

/-! ## The raw text -/

/-- What is read is the raw text, and it is read so in front of any other rest. -/
theorem read_raw (h : read d depth cs = some b) :
    cs = b.raw ++ b.rest ∧
      ∀ rest, read d depth (b.raw ++ rest) = some { b with rest := rest } := by
  fun_induction read d depth cs generalizing b with
  | case1 => cases h
  | case2 => cases h
  | case3 depth e cs ih =>
    obtain ⟨b', hb', rfl⟩ := Option.map_eq_some_iff.1 h
    obtain ⟨hcs, hread⟩ := ih hb'
    refine ⟨congrArg (fun l => escape :: e :: l) hcs, fun rest => ?_⟩
    rw [keepEscaped, List.cons_append, List.cons_append, read_escape, hread]
    rfl
  | case4 depth cs hopen ih =>
    obtain ⟨b', hb', rfl⟩ := Option.map_eq_some_iff.1 h
    obtain ⟨hcs, hread⟩ := ih hb'
    refine ⟨congrArg (fun l => d.opening :: l) hcs, fun rest => ?_⟩
    rw [keep, List.cons_append, read_opening hopen, hread]
    rfl
  | case5 cs hclose hne =>
    cases h
    refine ⟨rfl, fun rest => ?_⟩
    rw [List.cons_append, List.nil_append, read.eq_def]
    simp only [if_neg hclose, if_neg hne, if_true]
  | case6 cs depth hclose hne ih =>
    obtain ⟨b', hb', rfl⟩ := Option.map_eq_some_iff.1 h
    obtain ⟨hcs, hread⟩ := ih hb'
    refine ⟨congrArg (fun l => d.closing :: l) hcs, fun rest => ?_⟩
    rw [keep, List.cons_append, read_closing_succ hclose hne, hread]
    rfl
  | case7 depth c cs hc hopen hclose hsep ih =>
    obtain ⟨b', hb', rfl⟩ := Option.map_eq_some_iff.1 h
    obtain ⟨hcs, hread⟩ := ih hb'
    refine ⟨congrArg (fun l => c :: l) hcs, fun rest => ?_⟩
    rw [cut, List.cons_append, read.eq_def]
    simp only [if_neg hc, if_neg hopen, if_neg hclose, if_pos hsep, hread]
    rfl
  | case8 depth c cs hc hopen hclose hsep ih =>
    obtain ⟨b', hb', rfl⟩ := Option.map_eq_some_iff.1 h
    obtain ⟨hcs, hread⟩ := ih hb'
    refine ⟨congrArg (fun l => c :: l) hcs, fun rest => ?_⟩
    rw [keep, List.cons_append, read.eq_def]
    simp only [if_neg hc, if_neg hopen, if_neg hclose, if_neg hsep, hread]
    rfl

/-- What follows a call has no say in it. -/
theorem read_append (suffix : List Char) (h : read d depth cs = some b) :
    read d depth (cs ++ suffix) = some { b with rest := b.rest ++ suffix } := by
  obtain ⟨hcs, hread⟩ := read_raw h
  have := hread (b.rest ++ suffix)
  rwa [← List.append_assoc, ← hcs] at this

theorem rest_suffix (h : read d depth cs = some b) : b.rest <:+ cs := by
  rw [(read_raw h).1]
  exact List.suffix_append b.raw b.rest

theorem raw_ne_nil (h : read d depth cs = some b) : b.raw ≠ [] := by
  intro hnil
  have hcs := (read_raw h).1
  have hlt := length_rest_lt h
  rw [hcs, hnil, List.nil_append] at hlt
  exact Nat.lt_irrefl _ hlt

theorem length_raw_lt {depth' : Nat} (hdepth : depth < depth') (h : read d depth cs = some b)
    (h' : read d depth' cs = some b') : b.raw.length < b'.raw.length := by
  fun_induction read d depth cs generalizing depth' b b' with
  | case1 => cases h
  | case2 => cases h
  | case3 depth e cs ih =>
    rw [read_escape] at h'
    obtain ⟨x, hx, rfl⟩ := Option.map_eq_some_iff.1 h
    obtain ⟨x', hx', rfl⟩ := Option.map_eq_some_iff.1 h'
    exact Nat.add_lt_add_right (ih hdepth hx hx') 2
  | case4 depth cs hopen ih =>
    rw [read_opening hopen] at h'
    obtain ⟨x, hx, rfl⟩ := Option.map_eq_some_iff.1 h
    obtain ⟨x', hx', rfl⟩ := Option.map_eq_some_iff.1 h'
    exact Nat.add_lt_add_right (ih (Nat.add_lt_add_right hdepth 1) hx hx') 1
  | case5 cs hclose hne =>
    -- the outer call ends here, the inner one goes on
    cases h
    obtain ⟨k, rfl⟩ := Nat.exists_eq_succ_of_ne_zero (Nat.ne_of_gt hdepth)
    rw [read_closing_succ hclose hne] at h'
    obtain ⟨x', hx', rfl⟩ := Option.map_eq_some_iff.1 h'
    exact Nat.succ_lt_succ (List.length_pos_iff.2 (raw_ne_nil hx'))
  | case6 cs depth hclose hne ih =>
    obtain ⟨k, rfl⟩ := Nat.exists_eq_succ_of_ne_zero (Nat.ne_of_gt (Nat.zero_lt_of_lt hdepth))
    rw [read_closing_succ hclose hne] at h'
    obtain ⟨x, hx, rfl⟩ := Option.map_eq_some_iff.1 h
    obtain ⟨x', hx', rfl⟩ := Option.map_eq_some_iff.1 h'
    exact Nat.add_lt_add_right (ih (Nat.lt_of_succ_lt_succ hdepth) hx hx') 1
  | case7 depth c cs hc hopen hclose hsep ih =>
    obtain ⟨x, hx, rfl⟩ := Option.map_eq_some_iff.1 h
    obtain ⟨x', hx', hraw, -⟩ := read_other hc hopen hclose h'
    rw [hraw]
    exact Nat.add_lt_add_right (ih hdepth hx hx') 1
  | case8 depth c cs hc hopen hclose hsep ih =>
    obtain ⟨x, hx, rfl⟩ := Option.map_eq_some_iff.1 h
    obtain ⟨x', hx', hraw, -⟩ := read_other hc hopen hclose h'
    rw [hraw]
    exact Nat.add_lt_add_right (ih hdepth hx hx') 1

end CallBody

end PositiveLogic
