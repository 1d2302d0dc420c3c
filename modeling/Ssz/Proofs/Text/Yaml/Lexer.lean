-- SUMMARY: The lexer inside a line: how each piece of text moves it on, and what token it leaves.
import Ssz.Proofs.Text.Yaml.Scalar
import Ssz.Text.Yaml.Lexer

/-!
# Lexing flow lines

While the lexer reads a line, no block collection is open and no key is required,
so the only part of its state that is hard to foresee is where keys may have
begun. That part is left open: `At` says everything else about a state, and the
laws say from which state the lexer moves to which, piece by piece of the text.
-/

namespace Ssz.Text.Yaml

theorem mapM_eq_some_map {α β : Type} {f : α → Option β} {g : α → β} {xs : List α}
    (h : ∀ x ∈ xs, f x = some (g x)) : xs.mapM f = some (xs.map g) := by
  induction xs with
  | nil => rfl
  | cons x xs ih =>
    rw [List.forall_mem_cons] at h
    rw [List.mapM_cons, h.1, ih h.2]
    rfl

namespace Lexer

/-! ## States inside a line -/

/-- A state in which no block collection is open. The flow collections that are open are counted by
    the places of keys around the innermost one. -/
def inLine (fuel : Nat) (rest : List Cell) (keyAllowed : Bool) (start : Option KeyStart)
    (outer : List (Option KeyStart)) (tokens : List Token) : Lexer where
  rest := rest
  flowDepth := outer.length
  indent := -1
  outer := []
  keyAllowed := keyAllowed
  keyStarts := start :: outer
  tokens := tokens
  count := tokens.length
  fuel := fuel

/-- No key is required at the place. -/
def Free (start : Option KeyStart) : Prop := ∀ key ∈ start, key.required = false

theorem free_none : Free none := by
  intro key hkey
  cases hkey

theorem free_some (position : Nat) (c : Cell) : Free (some ⟨false, position, c⟩) := by
  intro key hkey
  cases hkey
  rfl

section InLine

variable {fuel : Nat} {rest : List Cell} {keyAllowed : Bool} {start : Option KeyStart}
  {outer : List (Option KeyStart)} {tokens : List Token}

theorem unindent_inLine (column : Int) :
    (inLine fuel rest keyAllowed start outer tokens).unindent column
      = inLine fuel rest keyAllowed start outer tokens := by
  unfold unindent
  split <;> rfl

theorem dropKey_inLine (hstart : Free start) :
    (inLine fuel rest keyAllowed start outer tokens).dropKey
      = some (inLine fuel rest keyAllowed none outer tokens) := by
  cases start with
  | none => rfl
  | some key =>
    simp only [dropKey, inLine, hstart key rfl]
    rfl

/-- The place of a key that may begin at a cell. -/
def noted (keyAllowed : Bool) (start : Option KeyStart) (tokens : List Token) (c : Cell) :
    Option KeyStart :=
  if keyAllowed then some ⟨false, tokens.length, c⟩ else start

theorem free_noted (hstart : Free start) (c : Cell) : Free (noted keyAllowed start tokens c) := by
  unfold noted
  split
  · exact free_some _ _
  · exact hstart

theorem noteKey_inLine (hstart : Free start) (c : Cell) :
    (inLine fuel rest keyAllowed start outer tokens).noteKey c
      = some (inLine fuel rest keyAllowed (noted keyAllowed start tokens c) outer tokens) := by
  cases keyAllowed with
  | false => rfl
  | true =>
    have hindent : ((-1 : Int) = (c.column : Int)) = False := by
      simp only [eq_iff_iff, iff_false]
      omega
    simp only [noteKey, dropKey_inLine hstart]
    simp [inLine, noted, hindent]

/-- The place of a key, unless it is too far from the cell. -/
def fresh (c : Cell) (start : Option KeyStart) : Option KeyStart :=
  start.filter fun key => !KeyStart.isStale key c

theorem free_fresh (hstart : Free start) (c : Cell) : Free (fresh c start) := by
  intro key hkey
  exact hstart key (Option.mem_filter_iff.1 hkey).1

theorem dropStale_inLine (hstart : Free start) (houter : ∀ s ∈ outer, Free s) (c : Cell) :
    (inLine fuel rest keyAllowed start outer tokens).dropStale c
      = some (inLine fuel rest keyAllowed (fresh c start) (outer.map (fresh c)) tokens) := by
  refine Option.bind_eq_some_iff.2 ⟨(start :: outer).map (fresh c), mapM_eq_some_map ?_, ?_⟩
  rotate_left
  · simp only [inLine, List.length_map, List.map_cons]
    rfl
  intro s hs
  have hfree : Free s := List.forall_mem_cons.2 ⟨hstart, houter⟩ s hs
  cases s with
  | none => rfl
  | some key =>
    simp only [hfree key rfl, fresh, Option.filter_some]
    cases KeyStart.isStale key c <;> rfl

/-! ## Between tokens -/

/-- Whether the character starts a token inside a line. -/
def startsToken (c : Char) : Bool := isInline c && c != ' ' && c != '#'

theorem skipGap_token {c : Cell} (hc : startsToken c.char = true) (steps : Nat) :
    skipGap steps (inLine fuel (c :: rest) keyAllowed start outer tokens)
      = inLine fuel (c :: rest) keyAllowed start outer tokens := by
  simp only [startsToken, Bool.and_eq_true, bne_iff_ne] at hc
  obtain ⟨⟨hinline, hspace⟩, hcomment⟩ := hc
  have hmark : c.char ≠ byteOrderMark := by
    intro heq
    rw [heq] at hinline
    cases hinline
  have htab : c.char ≠ '\t' := by
    intro heq
    rw [heq] at hinline
    cases hinline
  cases steps with
  | zero => rfl
  | succ steps =>
    simp [skipGap, inLine, hmark, hspace, htab, hcomment, isBreak_of_isInline hinline]

theorem skipGap_space {k : Nat} {c : Cell} (hc : startsToken c.char = true) (steps : Nat) :
    skipGap (steps + 1) (inLine fuel (⟨' ', k, 0, k⟩ :: c :: rest) keyAllowed start outer tokens)
      = inLine fuel (c :: rest) keyAllowed start outer tokens := by
  have hmark : (decide (k = 0) && decide (' ' = byteOrderMark)) = false := by
    rw [Bool.and_eq_false_iff]
    exact .inr rfl
  have hskip : skipGap (steps + 1)
      (inLine fuel (⟨' ', k, 0, k⟩ :: c :: rest) keyAllowed start outer tokens)
        = skipGap steps (inLine fuel (c :: rest) keyAllowed start outer tokens) := by
    rw [skipGap]
    simp [inLine, hmark]
  rw [hskip, skipGap_token hc]

/-- One round of the lexer at a token. -/
theorem run_token {c : Cell} (hc : startsToken c.char = true) (hstart : Free start)
    (houter : ∀ s ∈ outer, Free s) (steps : Nat) :
    run (steps + 1) (inLine fuel (c :: rest) keyAllowed start outer tokens)
      = (step (inLine fuel (c :: rest) keyAllowed (fresh c start) (outer.map (fresh c)) tokens) c
          rest).bind (run steps) := by
  rw [run, skipGap_token hc]
  change (Option.bind (dropStale _ c) _) = _
  rw [dropStale_inLine hstart houter]
  change (Option.bind (step (unindent _ _) c rest) _) = _
  rw [unindent_inLine]

end InLine

/-! ## Moves -/

/-- Lexing goes on from the first state as from the second, and no more rounds lie between them than
    cells are read. -/
def Lexes (lx lx' : Lexer) : Prop :=
  ∃ n, n + lx'.rest.length ≤ lx.rest.length ∧ ∀ steps, run (steps + n) lx = run steps lx'

/-- Whatever state satisfies the first condition is followed by one that satisfies the second. -/
def Moves (P Q : Lexer → Prop) : Prop := ∀ lx, P lx → ∃ lx', Lexes lx lx' ∧ Q lx'

theorem Lexes.trans {lx lx' lx'' : Lexer} (h : Lexes lx lx') (h' : Lexes lx' lx'') :
    Lexes lx lx'' := by
  obtain ⟨n, hn, hrun⟩ := h
  obtain ⟨n', hn', hrun'⟩ := h'
  refine ⟨n' + n, by omega, fun steps => ?_⟩
  rw [← Nat.add_assoc, hrun, hrun']

theorem Moves.trans {P Q R : Lexer → Prop} (h : Moves P Q) (h' : Moves Q R) : Moves P R := by
  intro lx hlx
  obtain ⟨lx', hlexes, hlx'⟩ := h lx hlx
  obtain ⟨lx'', hlexes', hlx''⟩ := h' lx' hlx'
  exact ⟨lx'', hlexes.trans hlexes', hlx''⟩

/-- The lexer is inside a line of which `cs` is left, at the given depth of flow collections. -/
def At (fuel depth : Nat) (cs : List Char) (keyAllowed : Bool) (tokens : List Token)
    (lx : Lexer) : Prop :=
  ∃ k start outer, Free start ∧ (∀ s ∈ outer, Free s) ∧ outer.length = depth ∧
    cs.length < fuel ∧ lx = inLine fuel (lineCells k cs) keyAllowed start outer tokens

section Moves

variable {fuel depth depth' : Nat} {c : Char} {cs cs' : List Char} {keyAllowed keyAllowed' : Bool}
  {tokens tokens' : List Token}

/-- The step at a token. -/
theorem lexes_of_step {k : Nat} {start : Option KeyStart} {outer : List (Option KeyStart)}
    {lx : Lexer} (hc : startsToken c = true) (hstart : Free start) (houter : ∀ s ∈ outer, Free s)
    (hstep : step (inLine fuel (lineCells k (c :: cs)) keyAllowed (fresh ⟨c, k, 0, k⟩ start)
      (outer.map (fresh ⟨c, k, 0, k⟩)) tokens) ⟨c, k, 0, k⟩ (lineCells (k + 1) cs) = some lx)
    (hrest : lx.rest.length ≤ cs.length) :
    Lexes (inLine fuel (lineCells k (c :: cs)) keyAllowed start outer tokens) lx := by
  refine ⟨1, ?_, fun steps => ?_⟩
  · simp only [inLine, length_lineCells, List.length_cons]
    omega
  · rw [lineCells, run_token hc hstart houter, ← lineCells, hstep]
    rfl

theorem free_map_fresh {outer : List (Option KeyStart)} (houter : ∀ s ∈ outer, Free s) (c : Cell) :
    ∀ s ∈ outer.map (fresh c), Free s := by
  intro s hs
  obtain ⟨s', hs', rfl⟩ := List.mem_map.1 hs
  exact free_fresh (houter s' hs') c

/-- The step at a token, as a move. -/
theorem moves_of_step (hc : startsToken c = true) (hcs : cs'.length ≤ cs.length)
    (hstep : ∀ k start outer, Free start → (∀ s ∈ outer, Free s) → outer.length = depth →
      cs.length + 1 < fuel →
      ∃ lx, step (inLine fuel (lineCells k (c :: cs)) keyAllowed start outer tokens) ⟨c, k, 0, k⟩
          (lineCells (k + 1) cs) = some lx ∧ At fuel depth' cs' keyAllowed' tokens' lx) :
    Moves (At fuel depth (c :: cs) keyAllowed tokens) (At fuel depth' cs' keyAllowed' tokens') := by
  rintro _ ⟨k, start, outer, hstart, houter, hdepth, hfuel, rfl⟩
  obtain ⟨lx, hlx, hat⟩ := hstep k (fresh ⟨c, k, 0, k⟩ start) (outer.map (fresh ⟨c, k, 0, k⟩))
    (free_fresh hstart _) (free_map_fresh houter _) (by rw [List.length_map, hdepth]) hfuel
  refine ⟨lx, lexes_of_step hc hstart houter hlx ?_, hat⟩
  obtain ⟨k', start', outer', -, -, -, -, rfl⟩ := hat
  simpa only [inLine, length_lineCells] using hcs

theorem run_congr {lx lx' : Lexer} (h : skipGap lx.fuel lx = skipGap lx'.fuel lx') (steps : Nat) :
    run steps lx = run steps lx' := by
  cases steps with
  | zero => rfl
  | succ steps => rw [run, run, h]

/-- A blank before a token is passed over. -/
theorem moves_space (hc : startsToken c = true) :
    Moves (At fuel depth (' ' :: c :: cs) keyAllowed tokens)
      (At fuel depth (c :: cs) keyAllowed tokens) := by
  rintro _ ⟨k, start, outer, hstart, houter, hdepth, hfuel, rfl⟩
  refine ⟨_, ⟨0, ?_, fun steps => ?_⟩,
    k + 1, start, outer, hstart, houter, hdepth, Nat.lt_of_succ_lt hfuel, rfl⟩
  · simp only [inLine, length_lineCells, List.length_cons]
    omega
  · obtain ⟨fuel, rfl⟩ : ∃ n, fuel = n + 1 := Nat.exists_eq_succ_of_ne_zero (by omega)
    exact run_congr ((skipGap_space hc fuel).trans (skipGap_token hc (fuel + 1)).symm) steps

/-! ## Punctuation -/

theorem moves_openFlow {t : Token} (hc : startsToken c = true)
    (hopen : ∀ k start outer,
      step (inLine fuel (lineCells k (c :: cs)) keyAllowed start outer tokens) ⟨c, k, 0, k⟩
          (lineCells (k + 1) cs)
        = openFlow (inLine fuel (lineCells k (c :: cs)) keyAllowed start outer tokens)
          ⟨c, k, 0, k⟩ t) :
    Moves (At fuel depth (c :: cs) keyAllowed tokens)
      (At fuel (depth + 1) cs true (t :: tokens)) := by
  refine moves_of_step hc (Nat.le_refl _) fun k start outer hstart houter hdepth hfuel => ?_
  rw [hopen, openFlow, noteKey_inLine hstart]
  exact ⟨_, rfl, k + 1, none, _ :: outer, free_none,
    List.forall_mem_cons.2 ⟨free_noted hstart _, houter⟩, congrArg (· + 1) hdepth,
    Nat.lt_of_succ_lt hfuel, rfl⟩

theorem moves_closeFlow {t : Token} (hc : startsToken c = true)
    (hclose : ∀ k start outer,
      step (inLine fuel (lineCells k (c :: cs)) keyAllowed start outer tokens) ⟨c, k, 0, k⟩
          (lineCells (k + 1) cs)
        = closeFlow (inLine fuel (lineCells k (c :: cs)) keyAllowed start outer tokens) t) :
    Moves (At fuel (depth + 1) (c :: cs) keyAllowed tokens)
      (At fuel depth cs false (t :: tokens)) := by
  refine moves_of_step hc (Nat.le_refl _) fun k start outer hstart houter hdepth hfuel => ?_
  obtain ⟨around, outer, rfl⟩ := List.exists_cons_of_length_eq_add_one hdepth
  rw [List.forall_mem_cons] at houter
  rw [hclose, closeFlow, dropKey_inLine hstart]
  exact ⟨_, rfl, k + 1, around, outer, houter.1, houter.2, Nat.succ.inj hdepth,
    Nat.lt_of_succ_lt hfuel, rfl⟩

theorem moves_openSequence : Moves (At fuel depth ('[' :: cs) keyAllowed tokens)
    (At fuel (depth + 1) cs true (.flowSequenceStart :: tokens)) :=
  moves_openFlow rfl fun k start outer => by simp [step, inLine, lineCells, atMarker_of_ne]

theorem moves_openMapping : Moves (At fuel depth ('\x7b' :: cs) keyAllowed tokens)
    (At fuel (depth + 1) cs true (.flowMappingStart :: tokens)) :=
  moves_openFlow rfl fun k start outer => by simp [step, inLine, lineCells, atMarker_of_ne]

theorem moves_closeSequence : Moves (At fuel (depth + 1) (']' :: cs) keyAllowed tokens)
    (At fuel depth cs false (.flowSequenceEnd :: tokens)) :=
  moves_closeFlow rfl fun k start outer => by simp [step, inLine, lineCells, atMarker_of_ne]

theorem moves_closeMapping : Moves (At fuel (depth + 1) ('\x7d' :: cs) keyAllowed tokens)
    (At fuel depth cs false (.flowMappingEnd :: tokens)) :=
  moves_closeFlow rfl fun k start outer => by simp [step, inLine, lineCells, atMarker_of_ne]

theorem moves_comma : Moves (At fuel depth (',' :: cs) keyAllowed tokens)
    (At fuel depth cs true (.flowEntry :: tokens)) := by
  refine moves_of_step rfl (Nat.le_refl _) fun k start outer hstart houter hdepth hfuel => ?_
  have hentry : step (inLine fuel (lineCells k (',' :: cs)) keyAllowed start outer tokens)
      ⟨',', k, 0, k⟩ (lineCells (k + 1) cs)
        = flowEntry (inLine fuel (lineCells k (',' :: cs)) keyAllowed start outer tokens) := by
    simp [step, inLine, lineCells, atMarker_of_ne]
  rw [hentry, flowEntry, dropKey_inLine hstart]
  exact ⟨_, rfl, k + 1, none, outer, free_none, houter, hdepth, Nat.lt_of_succ_lt hfuel, rfl⟩

/-! ## Scalars -/

theorem notMem_indicators {c : Char} (h : isPlainChar c = true) : c ∉ indicators := by
  have hall : indicators.any isPlainChar = false := by decide
  exact fun hmem => List.any_eq_false.1 hall c hmem h

theorem step_plain (hc : isPlainChar c = true) (k : Nat) (start : Option KeyStart)
    (outer : List (Option KeyStart)) (next : List Cell) :
    step (inLine fuel (lineCells k (c :: cs)) keyAllowed start outer tokens) ⟨c, k, 0, k⟩ next
      = plainScalar (inLine fuel (lineCells k (c :: cs)) keyAllowed start outer tokens)
        ⟨c, k, 0, k⟩ := by
  have hne {d : Char} (hd : isPlainChar d = false) : c ≠ d := ne_of_isPlainChar hc hd
  have hmarker {d : Char} (hd : isPlainChar d = false) :
      atMarker d (inLine fuel (lineCells k (c :: cs)) keyAllowed start outer tokens).rest = false :=
    atMarker_of_ne (hne hd) _
  have hstarts : startsPlain (inLine fuel (lineCells k (c :: cs)) keyAllowed start outer tokens)
      ⟨c, k, 0, k⟩ next = true := by
    simp [startsPlain, hne (d := '-') rfl, hne (d := '?') rfl, hne (d := ':') rfl,
      isSpace_of_isPlainChar hc, isBreak_of_isInline (isInline_of_isPlainChar hc),
      notMem_indicators hc]
  simp only [step, hmarker (d := '-') rfl, hmarker (d := '.') rfl, hstarts, hne (d := '%') rfl,
    hne (d := '[') rfl, hne (d := '\x7b') rfl, hne (d := ']') rfl, hne (d := '\x7d') rfl,
    hne (d := ',') rfl, hne (d := '-') rfl, hne (d := '?') rfl, hne (d := ':') rfl,
    hne (d := '*') rfl, hne (d := '&') rfl, hne (d := '!') rfl, hne (d := '|') rfl,
    hne (d := '>') rfl, hne (d := '\'') rfl, hne (d := '"') rfl, decide_false, Bool.and_false,
    Bool.false_and, Bool.false_eq_true, if_false, if_true]

section Words

variable {word : List Char} {d : Char}

/-- The state after a plain scalar inside a flow collection. -/
theorem plainScalar_inLine {k : Nat} {start : Option KeyStart} {outer : List (Option KeyStart)}
    (hne : word ≠ []) (hword : ∀ c ∈ word, isPlainChar c = true) (hstart : Free start)
    (hend : plainPiece (outer.length != 0) (lineCells (k + word.length) (d :: cs))
      = some ([], lineCells (k + word.length) (d :: cs)))
    (hspace : isSpace d = false) (hbreak : isBreak d = false) (hfuel : 0 < fuel) (c : Cell) :
    plainScalar (inLine fuel (lineCells k (word ++ d :: cs)) keyAllowed start outer tokens) c
      = some (inLine fuel (lineCells (k + word.length) (d :: cs)) false
        (noted keyAllowed start tokens c) outer (.scalar .plain word :: tokens)) := by
  obtain ⟨fuel, rfl⟩ := Nat.exists_eq_succ_of_ne_zero (Nat.ne_of_gt hfuel)
  have hread := readPlain_word hne hword hend hspace hbreak fuel (-1 + 1) k
  rw [← lineCells_append] at hread
  rw [plainScalar, noteKey_inLine hstart]
  change Option.bind (readPlain (fuel + 1) (outer.length != 0) (-1 + 1)
    (lineCells k (word ++ d :: cs))) _ = _
  rw [hread]
  rfl

theorem plainPiece_end (hd : endsFlowPlain d = true) (k : Nat) :
    plainPiece true (lineCells k (d :: cs)) = some ([], lineCells k (d :: cs)) := by
  simp only [endsFlowPlain, Bool.or_eq_true, decide_eq_true_eq] at hd
  obtain (((rfl | rfl) | rfl) | rfl) | rfl := hd <;> rfl

theorem gap_of_endsFlowPlain (hd : endsFlowPlain d = true) :
    isSpace d = false ∧ isBreak d = false := by
  simp only [endsFlowPlain, Bool.or_eq_true, decide_eq_true_eq] at hd
  obtain (((rfl | rfl) | rfl) | rfl) | rfl := hd <;> exact ⟨rfl, rfl⟩

theorem startsToken_of_isPlainChar (hc : isPlainChar c = true) : startsToken c = true := by
  simp only [startsToken, isInline_of_isPlainChar hc, Bool.true_and, Bool.and_eq_true, bne_iff_ne]
  exact ⟨ne_of_isPlainChar hc rfl, ne_of_isPlainChar hc rfl⟩

/-- Inside a flow collection. -/
theorem inFlow_of_length {outer : List (Option KeyStart)} (h : outer.length = depth + 1) :
    (outer.length != 0) = true := by
  rw [h]
  rfl

/-- The round that reads a plain scalar inside a flow collection. -/
theorem lexes_plain {k : Nat} {start : Option KeyStart} {outer : List (Option KeyStart)}
    (hword : ∀ c' ∈ c :: word, isPlainChar c' = true) (hstart : Free start)
    (houter : ∀ s ∈ outer, Free s) (hdepth : outer.length = depth + 1)
    (hend : ∀ k, plainPiece true (lineCells k (d :: cs)) = some ([], lineCells k (d :: cs)))
    (hspace : isSpace d = false) (hbreak : isBreak d = false) (hfuel : 0 < fuel) :
    Lexes (inLine fuel (lineCells k (c :: word ++ d :: cs)) keyAllowed start outer tokens)
      (inLine fuel (lineCells (k + (c :: word).length) (d :: cs)) false
        (noted keyAllowed (fresh ⟨c, k, 0, k⟩ start) tokens ⟨c, k, 0, k⟩)
        (outer.map (fresh ⟨c, k, 0, k⟩)) (.scalar .plain (c :: word) :: tokens)) := by
  have hc : isPlainChar c = true := hword c List.mem_cons_self
  have hdepth' : (outer.map (fresh ⟨c, k, 0, k⟩)).length = depth + 1 := by
    rw [List.length_map, hdepth]
  have hpiece : plainPiece ((outer.map (fresh ⟨c, k, 0, k⟩)).length != 0)
      (lineCells (k + (c :: word).length) (d :: cs))
        = some ([], lineCells (k + (c :: word).length) (d :: cs)) := by
    rw [inFlow_of_length hdepth']
    exact hend _
  refine lexes_of_step (startsToken_of_isPlainChar hc) hstart houter
    ((step_plain hc k _ _ _).trans (plainScalar_inLine (List.cons_ne_nil c word) hword
      (free_fresh hstart ⟨c, k, 0, k⟩) hpiece hspace hbreak hfuel _)) ?_
  have hleft : (d :: cs).length ≤ (word ++ d :: cs).length := by
    rw [List.length_append]
    exact Nat.le_add_left _ _
  exact Nat.le_trans (Nat.le_of_eq (length_lineCells _ _)) hleft

/-- A plain scalar that is an item or a value. -/
theorem moves_plain (hne : word ≠ []) (hword : ∀ c ∈ word, isPlainChar c = true)
    (hd : endsFlowPlain d = true) :
    Moves (At fuel (depth + 1) (word ++ d :: cs) keyAllowed tokens)
      (At fuel (depth + 1) (d :: cs) false (.scalar .plain word :: tokens)) := by
  obtain ⟨c, tail, rfl⟩ := List.exists_cons_of_ne_nil hne
  rintro _ ⟨k, start, outer, hstart, houter, hdepth, hfuel, rfl⟩
  obtain ⟨hspace, hbreak⟩ := gap_of_endsFlowPlain hd
  rw [List.length_append] at hfuel
  exact ⟨_, lexes_plain hword hstart houter hdepth (plainPiece_end hd) hspace hbreak
    (Nat.zero_lt_of_lt hfuel), _, _, _, free_noted (free_fresh hstart _) _,
    free_map_fresh houter _, (List.length_map _).trans hdepth,
    Nat.lt_of_le_of_lt (Nat.le_add_left _ _) hfuel, rfl⟩

/-- A colon, where a key may have begun one token before. -/
theorem value_inLine {k : Nat} {key : Cell} {t : Token} {outer : List (Option KeyStart)}
    (hdepth : outer.length = depth + 1) (c : Cell) :
    value (inLine fuel (lineCells k (':' :: cs)) false (some ⟨false, tokens.length, key⟩) outer
        (t :: tokens)) c
      = some (inLine fuel (lineCells (k + 1) cs) false none outer
        (.value :: t :: .key :: tokens)) := by
  generalize hlx : inLine fuel (lineCells k (':' :: cs)) false (some ⟨false, tokens.length, key⟩)
    outer (t :: tokens) = lx
  have hstarts : lx.keyStarts = some ⟨false, tokens.length, key⟩ :: outer := by
    rw [← hlx]
    rfl
  have hflow : lx.inFlow = true := by
    rw [← hlx]
    exact inFlow_of_length hdepth
  have hinsert : lx.insertAt tokens.length [.key] = inLine fuel (lineCells k (':' :: cs)) false
      (some ⟨false, tokens.length, key⟩) outer (t :: .key :: tokens) := by
    simp [← hlx, insertAt, inLine]
  simp only [value, hstarts, opensBlock, hflow, hinsert, Bool.not_true, Bool.false_and,
    Bool.false_eq_true, if_false]
  rw [← hlx]
  rfl

theorem step_colon {k : Nat} {start : Option KeyStart} {outer : List (Option KeyStart)}
    (hdepth : outer.length = depth + 1) (next : List Cell) :
    step (inLine fuel (lineCells k (':' :: cs)) keyAllowed start outer tokens) ⟨':', k, 0, k⟩ next
      = value (inLine fuel (lineCells k (':' :: cs)) keyAllowed start outer tokens)
        ⟨':', k, 0, k⟩ := by
  have hflow : (inLine fuel (lineCells k (':' :: cs)) keyAllowed start outer tokens).inFlow
      = true := inFlow_of_length hdepth
  have hmarker {d : Char} (hd : ':' ≠ d) :
      atMarker d (inLine fuel (lineCells k (':' :: cs)) keyAllowed start outer tokens).rest
        = false :=
    atMarker_of_ne hd _
  simp [step, hflow, hmarker]

theorem fresh_near {k k' position : Nat} {d : Char} (h : k' ≤ k + maxKeyLength) :
    fresh ⟨d, k', 0, k'⟩ (some ⟨false, position, ⟨c, k, 0, k⟩⟩)
      = some ⟨false, position, ⟨c, k, 0, k⟩⟩ := by
  have hstale : KeyStart.isStale ⟨false, position, ⟨c, k, 0, k⟩⟩ ⟨d, k', 0, k'⟩ = false := by
    simp only [KeyStart.isStale, Nat.lt_irrefl, decide_false, Bool.false_or,
      decide_eq_false_iff_not]
    exact Nat.not_lt.2 h
  rw [fresh, Option.filter_some, hstale]
  rfl

/-- The round that reads the colon of a key that has begun near enough. -/
theorem lexes_colon {k k' : Nat} {t : Token} {outer : List (Option KeyStart)}
    (houter : ∀ s ∈ outer, Free s) (hdepth : outer.length = depth + 1)
    (hnear : k' ≤ k + maxKeyLength) :
    Lexes (inLine fuel (lineCells k' (':' :: cs)) false (some ⟨false, tokens.length, ⟨c, k, 0, k⟩⟩)
        outer (t :: tokens))
      (inLine fuel (lineCells (k' + 1) cs) false none (outer.map (fresh ⟨':', k', 0, k'⟩))
        (.value :: t :: .key :: tokens)) := by
  have hdepth' : (outer.map (fresh ⟨':', k', 0, k'⟩)).length = depth + 1 := by
    rw [List.length_map, hdepth]
  refine lexes_of_step rfl (free_some _ _) houter ?_ (Nat.le_of_eq (length_lineCells _ _))
  rw [fresh_near hnear, step_colon hdepth']
  exact value_inLine hdepth' _

/-- A name is a key once its colon is found. -/
theorem moves_key (hname : Identifier word) :
    Moves (At fuel (depth + 1) (word ++ ':' :: ' ' :: cs) true tokens)
      (At fuel (depth + 1) (' ' :: cs) false
        (.value :: .scalar .plain word :: .key :: tokens)) := by
  obtain ⟨c, tail, rfl⟩ := List.exists_cons_of_ne_nil hname.ne_nil
  rintro _ ⟨k, start, outer, hstart, houter, hdepth, hfuel, rfl⟩
  have hdepth' : (outer.map (fresh ⟨c, k, 0, k⟩)).length = depth + 1 := by
    rw [List.length_map, hdepth]
  have houter' := free_map_fresh houter ⟨c, k, 0, k⟩
  have hnear : k + (c :: tail).length ≤ k + maxKeyLength :=
    Nat.add_le_add_left (Nat.le_of_lt hname.short) k
  have hleft : (' ' :: cs).length < fuel := by
    simp only [List.length_append, List.length_cons] at hfuel ⊢
    omega
  have hread : Lexes
      (inLine fuel (lineCells k (c :: tail ++ ':' :: ' ' :: cs)) true start outer tokens)
      (inLine fuel (lineCells (k + (c :: tail).length) (':' :: ' ' :: cs)) false
        (some ⟨false, tokens.length, ⟨c, k, 0, k⟩⟩) (outer.map (fresh ⟨c, k, 0, k⟩))
        (.scalar .plain (c :: tail) :: tokens)) :=
    lexes_plain hname.plain hstart houter hdepth (fun _ => rfl) rfl rfl (Nat.zero_lt_of_lt hfuel)
  exact ⟨_, hread.trans (lexes_colon houter' hdepth' hnear), _, none, _, free_none,
    free_map_fresh houter' _, (List.length_map _).trans hdepth', hleft, rfl⟩

theorem startsWith_lineCells (hd : d ≠ '\'') (k : Nat) :
    startsWith '\'' (lineCells k (d :: cs)) = false := decide_eq_false hd

/-- A quoted scalar, at any depth. -/
theorem moves_quoted (hne : word ≠ []) (hword : ∀ c ∈ word, isPlainChar c = true)
    (hd : d ≠ '\'') :
    Moves (At fuel depth ('\'' :: (word ++ '\'' :: d :: cs)) keyAllowed tokens)
      (At fuel depth (d :: cs) false (.scalar .quoted word :: tokens)) := by
  have hlength : (word ++ '\'' :: d :: cs).length = word.length + (d :: cs).length + 1 := by
    rw [List.length_append, List.length_cons, Nat.add_assoc]
  refine moves_of_step rfl (by omega) fun k start outer hstart houter hdepth hfuel => ?_
  have hstep : step (inLine fuel (lineCells k ('\'' :: (word ++ '\'' :: d :: cs))) keyAllowed
      start outer tokens) ⟨'\'', k, 0, k⟩ (lineCells (k + 1) (word ++ '\'' :: d :: cs))
        = quotedScalar (inLine fuel (lineCells k ('\'' :: (word ++ '\'' :: d :: cs))) keyAllowed
          start outer tokens) ⟨'\'', k, 0, k⟩ true := by
    simp [step, inLine, lineCells, atMarker_of_ne]
  have hread : readQuotedScalar fuel true (lineCells (k + 1) (word ++ '\'' :: d :: cs))
      = some (word, lineCells (k + 1 + word.length + 1) (d :: cs)) := by
    obtain ⟨fuel, rfl⟩ : ∃ n, fuel = n + 1 := Nat.exists_eq_succ_of_ne_zero (by omega)
    rw [lineCells_append]
    exact readQuotedScalar_word rfl (startsWith_lineCells hd _) hne hword (by omega) (k + 1)
  rw [hstep, quotedScalar, noteKey_inLine hstart]
  change ∃ lx, Option.bind (readQuotedScalar fuel true (lineCells (k + 1) _)) _ = some lx ∧ _
  rw [hread]
  exact ⟨_, rfl, _, _, outer, free_noted hstart _, houter, hdepth, by omega, rfl⟩

/-- A plain scalar on a line of its own. -/
theorem moves_plain_last (hne : word ≠ []) (hword : ∀ c ∈ word, isPlainChar c = true) :
    Moves (At fuel 0 (word ++ ['\n']) keyAllowed tokens)
      (At fuel 0 [] true (.scalar .plain word :: tokens)) := by
  obtain ⟨c, tail, rfl⟩ := List.exists_cons_of_ne_nil hne
  have hc : isPlainChar c = true := hword c List.mem_cons_self
  refine moves_of_step (startsToken_of_isPlainChar hc) (Nat.zero_le _)
    fun k start outer hstart houter hdepth hfuel => ?_
  obtain rfl := List.length_eq_zero_iff.1 hdepth
  have hread : readPlain fuel false (-1 + 1) (lineCells k (c :: tail ++ ['\n']))
      = some (c :: tail, true, []) := by
    have hlong : 2 < fuel := by
      change (tail ++ ['\n']).length + 1 < fuel at hfuel
      rw [List.length_append, List.length_singleton] at hfuel
      omega
    obtain ⟨fuel, rfl⟩ := Nat.exists_eq_add_of_le' hlong
    exact readPlain_last hne hword fuel _ k
  rw [step_plain hc, plainScalar, noteKey_inLine hstart]
  change ∃ lx, Option.bind (readPlain fuel false (-1 + 1) (lineCells k (c :: tail ++ ['\n']))) _
    = some lx ∧ _
  rw [hread]
  exact ⟨_, rfl, 0, _, [], free_noted hstart _, houter, rfl, by omega, rfl⟩

end Words

/-! ## The end of a line -/

theorem moves_break :
    Moves (At fuel 0 ['\n'] keyAllowed tokens) (At fuel 0 [] true tokens) := by
  rintro _ ⟨k, start, outer, hstart, houter, hdepth, hfuel, rfl⟩
  obtain rfl := List.length_eq_zero_iff.1 hdepth
  refine ⟨inLine fuel [] true start [] tokens, ⟨0, Nat.zero_le _, fun steps => ?_⟩,
    0, start, [], hstart, houter, rfl, Nat.zero_lt_of_lt hfuel, rfl⟩
  obtain ⟨fuel, rfl⟩ : ∃ n, fuel = n + 1 + 1 := Nat.exists_eq_add_of_le' hfuel
  refine run_congr ?_ steps
  have hmark : (decide (k = 0) && decide ('\n' = byteOrderMark)) = false := by
    rw [Bool.and_eq_false_iff]
    exact .inr rfl
  rw [lineCells, lineCells]
  simp [skipGap, inLine, hmark, isBreak, takeBreak, inFlow]

theorem run_end {lx : Lexer} (h : At fuel 0 [] keyAllowed tokens lx) (steps : Nat) :
    run (steps + 1) lx = some (Token.streamEnd :: tokens).reverse := by
  obtain ⟨k, start, outer, hstart, -, -, hfuel, rfl⟩ := h
  obtain ⟨fuel, rfl⟩ := Nat.exists_eq_succ_of_ne_zero (Nat.ne_of_gt hfuel)
  change Option.bind (dropKey (unindent (-1) (inLine _ [] _ _ _ _))) _ = _
  rw [unindent_inLine, dropKey_inLine hstart]
  rfl

end Moves

end Lexer

end Ssz.Text.Yaml
