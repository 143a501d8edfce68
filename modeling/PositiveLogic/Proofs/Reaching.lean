import PositiveLogic.Proofs.Faults
import PositiveLogic.Proofs.Literals

/-!
# Where the scanner comes to

`Token.Moves d b cs ts b' cs'`: moves of the scanner one after the other lead from the text `cs`, with
the literal `b` begun, to the rest `cs'`, with the literal `b'` begun, and give the tokens `ts`.

* `Token.scan_eq_error_iff`: a text is refused exactly if moves lead to a place where the scanner is
  stuck (`Token.Stuck`): an escape character at the end, a quote or the parameters of a call without
  an end.
* `Token.Moves.exists_head`: behind its last token the scanner has added the marks of the literal that
  has begun, one by one.
* `Token.Moves.scan_front`: what the scanner has passed where no literal has begun is read so by
  itself.
-/

namespace PositiveLogic

namespace Token

variable {d : Dialect} {b b' b'' : Buffer} {c : Char} {cs cs' cs'' suffix : List Char}
  {out ts us ts₁ ts₂ : List (Token Atom)} {a : Atom} {e : ScanError}

/-! ## What one move does -/

/-- A move either leaves no literal begun, or adds one mark to the literal. -/
theorem Move.emptied_or_extended (h : Move d b cs out b' cs') :
    b' = .empty ∨ ∃ m : Mark, out = [] ∧ cs = m.spell ++ cs' ∧ b' = b.extend [m] ∧
      (m.escaped = false → Fits d b m.char cs') := by
  cases h with
  | blank_kept hc hs => exact .inr ⟨Mark.plain _, rfl, rfl, rfl, fun _ => .inl ⟨hc, hs⟩⟩
  | @escaped e cs => exact .inr ⟨⟨e, true⟩, rfl, rfl, rfl, fun h => by cases h⟩
  | text hc => exact .inr ⟨Mark.plain _, rfl, rfl, rfl, fun _ => .inr hc⟩
  | _ => exact .inl rfl

theorem Move.of_append (h : Move d b (cs ++ suffix) out b' (cs' ++ suffix)) :
    Move d b cs out b' cs' := by
  generalize hcs : cs ++ suffix = xs at h
  generalize hcs' : cs' ++ suffix = ys at h
  -- what the move has read stands in the shorter text too
  have hfront : ∀ front : List Char, front ++ ys = cs ++ suffix → cs = front ++ cs' := by
    rintro front hfront
    rw [← hcs', ← List.append_assoc] at hfront
    exact (List.append_cancel_right hfront).symm
  cases h with
  | @blank_ends c cs₀ hc hs =>
    rw [hfront [c] hcs.symm]
    exact .blank_ends hc hs
  | @blank_kept c cs₀ hc hs =>
    rw [hfront [c] hcs.symm]
    exact .blank_kept hc hs
  | @escaped e cs₀ =>
    rw [hfront [escape, e] hcs.symm]
    exact .escaped
  | @quoted cs₀ text rest hblank hescape hb hread =>
    obtain ⟨raw, rfl, hraw⟩ := Quoted.read_raw hread
    rw [hfront (d.quote :: raw) hcs.symm]
    exact .quoted hblank hescape hb (hraw cs')
  | @operator c cs₀ rest op hc hop =>
    rw [← hcs, ← hcs'] at hop
    have hop := Dialect.operatorAt?_of_append hop
    cases cs with
    | nil => exact absurd (Dialect.length_rest_lt_of_operatorAt? hop) (Nat.not_lt_zero _)
    | cons x cs =>
      obtain ⟨rfl, -⟩ := List.cons.inj hcs
      exact .operator hc hop
  | @group cs₀ hc hop hb =>
    obtain rfl := hfront [d.opening] hcs.symm
    rw [← hcs] at hop
    exact .group hc (Dialect.operatorAt?_eq_none_of_append hop) hb
  | @call cs₀ body hc hop hb hread =>
    obtain ⟨hraw, hagain⟩ := CallBody.read_raw hread
    rw [← hcs] at hop
    obtain rfl := hfront (d.opening :: body.raw) (by rw [hcs, hraw]; rfl)
    have := Move.call hc (Dialect.operatorAt?_eq_none_of_append hop) hb (hagain cs')
    exact this
  | @closing cs₀ hc hop hne =>
    obtain rfl := hfront [d.closing] hcs.symm
    rw [← hcs] at hop
    exact .closing hc (Dialect.operatorAt?_eq_none_of_append hop) hne
  | @text c cs₀ hc =>
    obtain rfl := hfront [c] hcs.symm
    refine .text ⟨hc.1, ?_, hc.2.2⟩
    have hop := hc.2.1
    rw [← hcs', ← List.cons_append] at hop
    exact Dialect.operatorAt?_eq_none_of_append hop

/-- An opening character in front of `cs` that starts the parameters of a call. -/
structure OpensCall (d : Dialect) (b : Buffer) (cs : List Char) : Prop where
  sign : IsSignOrText d b d.opening
  no_operator : d.operatorAt? (d.opening :: cs) = none
  begun : b.isVacant = false

/-- **A call is given by itself**, where its opening character stands. -/
theorem Move.call_cases (h : Move d b cs out b' cs') (ha : .literal a ∈ out)
    (hcall : a.call ≠ none) : ∃ rest body, cs = d.opening :: rest ∧ OpensCall d b rest ∧
      CallBody.read d 0 rest = some body ∧ out = [.literal a] ∧ a = d.call b.text body ∧
      b' = .empty ∧ cs' = body.rest := by
  have hplain : .literal a ∉ d.flush b := fun hmem => by
    obtain ⟨-, rfl⟩ := Dialect.mem_flush_iff.1 hmem
    exact hcall rfl
  cases h with
  | blank_ends _ _ => exact absurd ha hplain
  | quoted _ _ _ _ =>
    cases List.mem_singleton.1 ha
    exact absurd rfl hcall
  | operator _ hop =>
    have hoperator := Dialect.isOperator_of_operatorAt? hop
    rcases List.mem_append.1 ha with ha | ha
    · exact absurd ha hplain
    · rw [← List.mem_singleton.1 ha] at hoperator
      cases hoperator
  | group _ _ _ => cases List.mem_singleton.1 ha
  | call hc hop hb hread =>
    cases List.mem_singleton.1 ha
    exact ⟨_, _, rfl, ⟨hc, hop, hb⟩, hread, rfl, rfl, rfl, rfl⟩
  | closing _ _ _ =>
    rcases List.mem_append.1 ha with ha | ha
    · exact absurd ha hplain
    · cases List.mem_singleton.1 ha
  | _ => cases ha

/-! ## Moves one after the other -/

/-- Moves that lead from one place to another, and the tokens they give. -/
inductive Moves (d : Dialect) (b : Buffer) (cs : List Char) :
    List (Token Atom) → Buffer → List Char → Prop
  | refl : Moves d b cs [] b cs
  | snoc {b' b'' : Buffer} {cs' cs'' : List Char} {ts out : List (Token Atom)} :
      Moves d b cs ts b' cs' → Move d b' cs' out b'' cs'' → Moves d b cs (ts ++ out) b'' cs''

namespace Moves

theorem cons (h : Move d b cs out b' cs') (hmoves : Moves d b' cs' ts b'' cs'') :
    Moves d b cs (out ++ ts) b'' cs'' := by
  induction hmoves with
  | refl =>
    rw [List.append_nil]
    exact refl.snoc h
  | snoc _ hmove ih =>
    rw [← List.append_assoc]
    exact ih.snoc hmove

theorem rest_suffix (h : Moves d b cs ts b' cs') : cs' <:+ cs := by
  induction h with
  | refl => exact List.suffix_refl _
  | snoc _ hmove ih => exact hmove.rest_suffix.trans ih

theorem scan_eq (h : Moves d b cs ts b' cs') : scan d b cs = thenScan ts (scan d b' cs') := by
  induction h with
  | refl => rw [thenScan_nil]
  | snoc _ hmove ih => rw [ih, scan_of_move hmove, thenScan_thenScan]

theorem of_append (h : Moves d b (cs ++ suffix) ts b' (cs' ++ suffix)) :
    Moves d b cs ts b' cs' := by
  generalize hcs' : cs' ++ suffix = ys at h
  induction h generalizing cs' with
  | refl =>
    obtain rfl := List.append_cancel_right hcs'
    exact .refl
  | snoc _ hmove ih =>
    subst hcs'
    obtain ⟨front, hfront⟩ := hmove.rest_suffix
    rw [← List.append_assoc] at hfront
    have hmoves := ih hfront
    rw [← hfront] at hmove
    exact hmoves.snoc hmove.of_append

/-- **The literal that has begun behind the last token**: its marks were added one by one, from a
place where no literal had begun. -/
theorem exists_head (h : Moves d .empty cs ts b' cs') : ∃ head : List Mark,
    Moves d .empty cs ts .empty (head.flatMap Mark.spell ++ cs') ∧ FitAll d cs' .empty head ∧
      b' = Buffer.empty.extend head := by
  induction h with
  | refl => exact ⟨[], .refl, trivial, rfl⟩
  | @snoc b b'' cs' cs'' ts out hmoves hmove ih =>
    obtain rfl | ⟨m, rfl, rfl, rfl, hm⟩ := hmove.emptied_or_extended
    · exact ⟨[], hmoves.snoc hmove, trivial, rfl⟩
    obtain ⟨head, hhead, hfit, rfl⟩ := ih
    refine ⟨head ++ [m], ?_, ?_, by simp [Buffer.extend]⟩
    · rw [List.append_nil, List.flatMap_append, List.append_assoc]
      simpa using hhead
    · refine FitAll.append ?_ ⟨hm, trivial⟩
      simpa using hfit

/-- **What is passed is read so by itself**, up to a place where no literal has begun. -/
theorem scan_front (h : Moves d .empty (cs ++ suffix) ts .empty suffix) :
    scan d .empty cs = .ok ts := by
  have hfront : Moves d .empty cs ts .empty [] := of_append h
  rw [hfront.scan_eq, scan_nil, thenScan, Dialect.flush_of_text_eq_nil d rfl, List.append_nil]

end Moves

/-- **Where a call of a reading stands.** -/
theorem Scans.exists_call (h : Scans d b cs us) (hus : us = ts₁ ++ .literal a :: ts₂)
    (hcall : a.call ≠ none) : ∃ b' rest body, Moves d b cs ts₁ b' (d.opening :: rest) ∧
      OpensCall d b' rest ∧ CallBody.read d 0 rest = some body ∧ a = d.call b'.text body ∧
      Scans d .empty body.rest ts₂ := by
  induction h generalizing ts₁ with
  | @done b =>
    have hmem : .literal a ∈ d.flush b := by simp [hus]
    obtain ⟨-, rfl⟩ := Dialect.mem_flush_iff.1 hmem
    exact absurd rfl hcall
  | @move b b' cs cs' out ts hmove hscans ih =>
    -- the call is a token of the rest, or one that this move gives
    have in_rest : ∀ ts₁', ts₁ = out ++ ts₁' → ts = ts₁' ++ .literal a :: ts₂ →
        ∃ b' rest body, Moves d b cs ts₁ b' (d.opening :: rest) ∧ OpensCall d b' rest ∧
          CallBody.read d 0 rest = some body ∧ a = d.call b'.text body ∧
          Scans d .empty body.rest ts₂ := by
      rintro ts₁' rfl hts
      obtain ⟨b'', rest, body, hmoves, hfound⟩ := ih hts
      exact ⟨b'', rest, body, hmoves.cons hmove, hfound⟩
    obtain ⟨ts₁', hts₁, hts⟩ | ⟨out', hout, hts⟩ := List.append_eq_append_iff.1 hus
    · exact in_rest ts₁' hts₁ hts
    cases out' with
    | nil => exact in_rest [] (by simp [hout]) hts.symm
    | cons t out' =>
      obtain ⟨rfl, htail⟩ := List.cons.inj hts
      obtain ⟨rest, body, rfl, hopens, hread, hsingle, ha, rfl, rfl⟩ :=
        hmove.call_cases (by simp [hout]) hcall
      rw [hout] at hsingle
      obtain rfl : ts₁ = [] := by
        cases ts₁ with
        | nil => rfl
        | cons t ts₁ => simp at hsingle
      obtain rfl : out' = [] := by simpa using hsingle
      obtain rfl : ts₂ = ts := htail
      exact ⟨b, rest, body, .refl, hopens, hread, ha, hscans⟩

/-! ## Where the scanner is stuck -/

/-- A place that no move leads away from, short of the end of the text, and the error there. -/
inductive Stuck (d : Dialect) : Buffer → List Char → ScanError → Prop
  /-- An escape character at the end. -/
  | escape {b : Buffer} : Stuck d b [escape] ⟨.danglingEscape, 1⟩
  /-- A quote that is not closed, because the text ends in an escape character. -/
  | quotedEscape {b : Buffer} {cs : List Char} (hblank : Text.isBlank d.quote = false)
      (hescape : d.quote ≠ PositiveLogic.escape) (hb : b.isVacant = true)
      (hread : Quoted.read d.quote cs = .error .danglingEscape) :
      Stuck d b (d.quote :: cs) ⟨.danglingEscape, 1⟩
  /-- A quote that is not closed. -/
  | quoted {b : Buffer} {cs : List Char} (hblank : Text.isBlank d.quote = false)
      (hescape : d.quote ≠ PositiveLogic.escape) (hb : b.isVacant = true)
      (hread : Quoted.read d.quote cs = .error .unterminatedQuote) :
      Stuck d b (d.quote :: cs) ⟨.unterminatedQuote, cs.length + 1⟩
  /-- Parameters of a call that are not closed. -/
  | call {b : Buffer} {cs : List Char} (hopens : OpensCall d b cs)
      (hread : CallBody.read d 0 cs = none) :
      Stuck d b (d.opening :: cs) ⟨.unterminatedContainer, cs.length + 1⟩

theorem Stuck.scan_eq (h : Stuck d b cs e) : scan d b cs = .error e := by
  cases h with
  | escape => exact scan_escape_nil
  | quotedEscape hblank hescape hb hread => rw [scan_quoted hblank hescape hb, hread]
  | quoted hblank hescape hb hread => rw [scan_quoted hblank hescape hb, hread]
  | call hopens hread =>
    rw [scan_opening hopens.sign hopens.no_operator, if_neg (by simp [hopens.begun]), hread]

/-- **A text is refused exactly if moves lead to a place where the scanner is stuck.** -/
theorem scan_eq_error_iff :
    scan d b cs = .error e ↔ ∃ ts b' cs', Moves d b cs ts b' cs' ∧ Stuck d b' cs' e := by
  constructor
  · intro h
    -- a step of the scanner is a move in front of those of the rest
    have then_move : ∀ {b b' : Buffer} {cs cs' : List Char} {out : List (Token Atom)},
        Move d b cs out b' cs' → thenScan out (scan d b' cs') = .error e →
        (scan d b' cs' = .error e →
          ∃ ts b'' cs'', Moves d b' cs' ts b'' cs'' ∧ Stuck d b'' cs'' e) →
        ∃ ts b'' cs'', Moves d b cs ts b'' cs'' ∧ Stuck d b'' cs'' e := by
      intro b b' cs cs' out hmove h ih
      obtain ⟨ts, b'', cs'', hmoves, hstuck⟩ := ih (thenScan_eq_error_iff.1 h)
      exact ⟨_, b'', cs'', hmoves.cons hmove, hstuck⟩
    fun_induction scan d b cs with
    | case1 b => cases h
    | case2 b c cs hc hs ih => exact then_move (.blank_ends hc hs) h ih
    | case3 b c cs hc hs ih =>
      exact then_move (.blank_kept hc (by simpa using hs)) ((thenScan_nil _).trans h) ih
    | case4 b =>
      cases h
      exact ⟨[], b, _, .refl, .escape⟩
    | case5 b x cs _ ih => exact then_move .escaped ((thenScan_nil _).trans h) ih
    | case6 b c cs hblank hescape hquote text rest hread ih =>
      obtain ⟨rfl, hb⟩ := hquote
      exact then_move (.quoted (by simpa using hblank) hescape hb hread) h ih
    | case7 b c cs hblank hescape hquote hread =>
      obtain ⟨rfl, hb⟩ := hquote
      cases h
      exact ⟨[], b, _, .refl, .quotedEscape (by simpa using hblank) hescape hb hread⟩
    | case8 b c cs hblank hescape hquote fault hfault hread =>
      obtain ⟨rfl, hb⟩ := hquote
      cases h
      obtain rfl | ⟨rfl, -⟩ := Quoted.fault_of_read hread
      · exact ⟨[], b, _, .refl, .quoted (by simpa using hblank) hescape hb hread⟩
      · exact absurd rfl hfault
    | case9 b c cs hblank hescape hquote op rest hop ih =>
      exact then_move (.operator ⟨by simpa using hblank, hescape, hquote⟩ hop) h ih
    | case10 b cs hb hblank hescape hquote hop ih =>
      exact then_move (.group ⟨by simpa using hblank, hescape, hquote⟩ hop hb) h ih
    | case11 b cs hb body hread hblank hescape hquote hop ih =>
      exact then_move
        (.call ⟨by simpa using hblank, hescape, hquote⟩ hop (by simpa using hb) hread) h ih
    | case12 b cs hb hread hblank hescape hquote hop =>
      cases h
      exact ⟨[], b, _, .refl,
        .call ⟨⟨by simpa using hblank, hescape, hquote⟩, hop, by simpa using hb⟩ hread⟩
    | case13 b cs hblank hescape hquote hop hne ih =>
      exact then_move (.closing ⟨by simpa using hblank, hescape, hquote⟩ hop hne) h ih
    | case14 b c cs hblank hescape hquote hop hopen hclose ih =>
      exact then_move (.text ⟨⟨by simpa using hblank, hescape, hquote⟩, hop, hopen, hclose⟩)
        ((thenScan_nil _).trans h) ih
  · rintro ⟨ts, b', cs', hmoves, hstuck⟩
    rw [hmoves.scan_eq, hstuck.scan_eq]
    rfl

end Token

end PositiveLogic
