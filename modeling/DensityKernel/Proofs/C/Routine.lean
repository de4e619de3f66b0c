import DensityKernel.C.SourceFile
import DensityKernel.Proofs.C.Characters
import DensityKernel.Proofs.C.ZeroStatements

/-!
Generated routines read as C statements. A statement goes up to its semicolon. A
condition without braces governs just the next statement, one with braces all
statements of the block, and a line that starts as a comment is left out. What
the conditions say is decided from outside.
-/

namespace DensityKernel.C

open Text

/-! ### Reading -/

/-- How far the statements of a routine have been read. -/
structure Progress where
  /-- Whether the open blocks are executed, the innermost first. -/
  blocks : List Bool := []
  /-- The conditions in front of the next statement hold. -/
  guard : Bool := true
  /-- What has been read of the next statement. -/
  piece : List Char := []
  /-- The statements that were executed. -/
  executed : List (List Char) := []

/-- The condition in a text that goes up to its closing parenthesis. Conditions
hold no parentheses of their own. -/
def condition? (piece : List Char) : Option (List Char) :=
  match piece.dropWhile isBlank with
  | 'i' :: 'f' :: rest =>
    match rest.dropWhile isBlank with
    | '(' :: condition => some condition
    | _ => none
  | _ => none

variable (holds : List Char → Bool)

namespace Progress

/-- Reads a character. -/
def read (p : Progress) (c : Char) : Progress :=
  if c = ';' then
    { p with
      guard := true
      piece := []
      executed := p.executed ++
        if p.blocks.all id && p.guard then [p.piece.dropWhile isBlank] else [] }
  else if c = '\x7b' then { p with blocks := p.guard :: p.blocks, guard := true, piece := [] }
  else if c = '\x7d' then { p with blocks := p.blocks.tail, guard := true, piece := [] }
  else
    match if c = ')' then condition? p.piece else none with
    | some condition => { p with guard := p.guard && holds condition, piece := [] }
    | none => { p with piece := p.piece ++ [c] }

/-- Reads a line with its line feed. -/
def readLine (p : Progress) (line : List Char) : Progress :=
  if ['/', '/'].isPrefixOf (line.dropWhile isBlank) then p
  else (line ++ ['\n']).foldl (read holds) p

end Progress

/-- The statements of a routine that are executed, in order. -/
def executed (code : String) : List (List Char) :=
  ((splitLines code.toList).foldl (Progress.readLine holds) {}).executed

/-- The slot that a statement adds to. -/
def slot? (statement : List Char) : Option String :=
  match statement with
  | 'd' :: 's' :: '-' :: '>' :: target =>
    if [' ', '+', '=', ' '].isPrefixOf (target.dropWhile (· != ' ')) then
      some (String.ofList (target.takeWhile (· != ' ')))
    else none
  | _ => none

/-- The slots that a routine adds to, in order. -/
def executedSlots (code : String) : List String :=
  (executed holds code).filterMap slot?

/-! ### Steps -/

/-- A character that ends no statement and opens and closes no block. -/
def Continues (c : Char) : Prop :=
  c ∉ [';', '\x7b', '\x7d']

instance : DecidablePred Continues :=
  fun c => inferInstanceAs (Decidable (c ∉ [';', '\x7b', '\x7d']))

theorem isBlank_space : isBlank ' ' = true := by
  decide

theorem continues_of_isBlank {c : Char} (h : isBlank c = true) : Continues c ∧ c ≠ ')' := by
  refine ⟨fun hmem => ?_, ?_⟩
  · simp only [List.mem_cons, List.not_mem_nil, or_false] at hmem
    rcases hmem with rfl | rfl | rfl <;> exact absurd h (by decide)
  · rintro rfl
    exact absurd h (by decide)

theorem continues_of_isInline {c : Char} (h : isInline c = true) : Continues c := by
  intro hmem
  simp only [List.mem_cons, List.not_mem_nil, or_false] at hmem
  rcases hmem with rfl | rfl | rfl <;> exact absurd h (by decide)

/-- A text that begins a statement without a condition. -/
def Opens (cs : List Char) : Prop :=
  ∃ c ds, cs = c :: ds ∧ isBlank c = false ∧ c ≠ 'i'

theorem takeWhile_blank {blanks cs : List Char} (hblanks : ∀ c ∈ blanks, isBlank c = true)
    (h : Opens cs) : (blanks ++ cs).takeWhile isBlank = blanks := by
  obtain ⟨c, ds, rfl, hc, -⟩ := h
  rw [List.takeWhile_append_of_pos hblanks, List.takeWhile_cons_of_neg (by simp [hc]),
    List.append_nil]

theorem dropWhile_blank {blanks cs : List Char} (hblanks : ∀ c ∈ blanks, isBlank c = true)
    (h : Opens cs) : (blanks ++ cs).dropWhile isBlank = cs := by
  obtain ⟨c, ds, rfl, hc, -⟩ := h
  rw [List.dropWhile_append_of_pos hblanks, List.dropWhile_cons_of_neg (by simp [hc])]

/-- A statement that has begun otherwise is no condition. -/
theorem condition?_eq_none {blanks cs : List Char} (hblanks : ∀ c ∈ blanks, isBlank c = true)
    (h : Opens cs) : condition? (blanks ++ cs) = none := by
  rw [condition?, dropWhile_blank hblanks h]
  obtain ⟨c, ds, rfl, -, hc⟩ := h
  split
  · next heq => exact absurd (List.cons.inj heq).1 hc
  · rfl

namespace Progress

variable {holds} {p : Progress} {cs : List Char} {c : Char}

theorem read_of_continues (h : Continues c) (hparen : c = ')' → condition? p.piece = none) :
    p.read holds c = { p with piece := p.piece ++ [c] } := by
  simp only [Continues, List.mem_cons, List.not_mem_nil, or_false, not_or] at h
  obtain ⟨hsemicolon, hopen, hclose⟩ := h
  rw [read, if_neg hsemicolon, if_neg hopen, if_neg hclose]
  split_ifs with hc
  · rw [hparen hc]
  · rfl

/-- Characters that end nothing are taken into the next statement. -/
theorem foldl_read (h : ∀ c ∈ cs, Continues c) (hparen : ')' ∉ cs) :
    cs.foldl (read holds) p = { p with piece := p.piece ++ cs } := by
  induction cs generalizing p with
  | nil => simp
  | cons c cs ih =>
    obtain ⟨hc, hcs⟩ := List.forall_mem_cons.mp h
    obtain ⟨hne, hrest⟩ := not_or.mp fun hmem => hparen (List.mem_cons.mpr hmem)
    rw [List.foldl_cons, read_of_continues hc fun heq => absurd heq.symm hne, ih hcs hrest]
    simp

/-- So are parentheses in a statement that has begun. -/
theorem foldl_read_begun {blanks begun : List Char} (hpiece : p.piece = blanks ++ begun)
    (hblanks : ∀ c ∈ blanks, isBlank c = true) (hbegun : Opens begun)
    (h : ∀ c ∈ cs, Continues c) : cs.foldl (read holds) p = { p with piece := p.piece ++ cs } := by
  induction cs generalizing p begun with
  | nil => simp
  | cons c cs ih =>
    obtain ⟨hc, hcs⟩ := List.forall_mem_cons.mp h
    have hnone : condition? p.piece = none := hpiece ▸ condition?_eq_none hblanks hbegun
    have hnext : Opens (begun ++ [c]) := by
      obtain ⟨d, ds, rfl, hd⟩ := hbegun
      exact ⟨d, ds ++ [c], rfl, hd⟩
    rw [List.foldl_cons, read_of_continues hc fun _ => hnone,
      ih (by rw [hpiece, List.append_assoc]) hnext hcs]
    simp

/-! ### Between statements -/

/-- Nothing has been read of the next statement, but conditions in front of it. -/
structure Ready (p : Progress) (blocks : List Bool) (guard : Bool) (executed : List (List Char)) :
    Prop where
  blocks_eq : p.blocks = blocks
  guard_eq : p.guard = guard
  executed_eq : p.executed = executed
  blank : ∀ c ∈ p.piece, isBlank c = true

namespace Ready

variable {blocks : List Bool} {guard : Bool} {done : List (List Char)}

theorem blanks (h : Ready p blocks guard done) (hcs : ∀ c ∈ cs, isBlank c = true) :
    Ready (cs.foldl (read holds) p) blocks guard done := by
  rw [foldl_read (fun c hc => (continues_of_isBlank (hcs c hc)).1)
    fun hparen => (continues_of_isBlank (hcs _ hparen)).2 rfl]
  exact ⟨h.blocks_eq, h.guard_eq, h.executed_eq, List.forall_mem_append.mpr ⟨h.blank, hcs⟩⟩

/-- The text of a statement is collected. -/
theorem collects (h : Ready p blocks guard done) (hopens : Opens cs)
    (hcs : ∀ c ∈ cs, Continues c) :
    cs.foldl (read holds) p = { p with piece := p.piece ++ cs } := by
  obtain ⟨c, ds, rfl, hc, hne⟩ := hopens
  obtain ⟨hcontinues, hds⟩ := List.forall_mem_cons.mp hcs
  have hnone : condition? p.piece = none := by
    have hempty : p.piece.dropWhile isBlank = [] := List.dropWhile_eq_nil_iff.mpr h.blank
    rw [condition?, hempty]
  have hbegun : Opens [c] := ⟨c, [], rfl, hc, hne⟩
  rw [List.foldl_cons, read_of_continues hcontinues fun _ => hnone,
    foldl_read_begun rfl h.blank hbegun hds]
  simp

/-- **A statement is executed if its conditions and those of the open blocks
hold.** -/
theorem statement (h : Ready p blocks guard done) (hopens : Opens cs)
    (hcs : ∀ c ∈ cs, Continues c) :
    Ready ((cs ++ [';']).foldl (read holds) p) blocks true
      (done ++ if blocks.all id && guard then [cs] else []) := by
  rw [List.foldl_append, h.collects hopens hcs, List.foldl_cons, List.foldl_nil, read, if_pos rfl]
  refine ⟨h.blocks_eq, rfl, ?_, List.forall_mem_nil _⟩
  rw [dropWhile_blank h.blank hopens, ← h.blocks_eq, ← h.guard_eq, ← h.executed_eq]

/-- A block is entered, whatever stands in front of it that is no condition. -/
theorem enter (h : Ready p blocks guard done) (hopens : Opens cs)
    (hcs : ∀ c ∈ cs, Continues c) :
    Ready ((cs ++ ['\x7b']).foldl (read holds) p) (guard :: blocks) true done := by
  rw [List.foldl_append, h.collects hopens hcs]
  exact ⟨congrArg₂ _ h.guard_eq h.blocks_eq, rfl, h.executed_eq, List.forall_mem_nil _⟩

theorem enterBlock (h : Ready p blocks guard done) :
    Ready (p.read holds '\x7b') (guard :: blocks) true done :=
  ⟨congrArg₂ _ h.guard_eq h.blocks_eq, rfl, h.executed_eq, List.forall_mem_nil _⟩

theorem leaveBlock {block : Bool} (h : Ready p (block :: blocks) guard done) :
    Ready (p.read holds '\x7d') blocks true done :=
  ⟨congrArg List.tail h.blocks_eq, rfl, h.executed_eq, List.forall_mem_nil _⟩

/-- A condition is added to those in front of the next statement. -/
theorem condition (h : Ready p blocks guard done) (hcs : ∀ c ∈ cs, Continues c)
    (hparen : ')' ∉ cs) :
    Ready (('i' :: 'f' :: ' ' :: '(' :: (cs ++ [')'])).foldl (read holds) p) blocks
      (guard && holds cs) done := by
  have hfront : ∀ c ∈ 'i' :: 'f' :: ' ' :: '(' :: cs, Continues c := by
    intro c hc
    simp only [List.mem_cons] at hc
    rcases hc with rfl | rfl | rfl | rfl | hc
    · decide
    · decide
    · decide
    · decide
    · exact hcs c hc
  have hnone : ')' ∉ 'i' :: 'f' :: ' ' :: '(' :: cs := by simpa using hparen
  have hcondition : condition? (p.piece ++ 'i' :: 'f' :: ' ' :: '(' :: cs) = some cs := by
    rw [condition?, List.dropWhile_append_of_pos h.blank, List.dropWhile_cons_of_neg (by decide)]
    simp only
    rw [List.dropWhile_cons_of_pos (by decide), List.dropWhile_cons_of_neg (by decide)]
    rfl
  rw [show 'i' :: 'f' :: ' ' :: '(' :: (cs ++ [')']) = ('i' :: 'f' :: ' ' :: '(' :: cs) ++ [')']
    from rfl, List.foldl_append, foldl_read hfront hnone, List.foldl_cons, List.foldl_nil, read]
  simp only [hcondition]
  exact ⟨h.blocks_eq, by rw [← h.guard_eq]; rfl, h.executed_eq, List.forall_mem_nil _⟩

end Ready

end Progress

/-! ### Statements -/

/-- How the statements of a routine are written: they add to fields of the
accumulator, and nothing stands in front of the value. -/
structure Unscaled (format : StatementFormat) : Prop where
  accumulator : format.accumulator = "ds->"
  factor : format.factor = ""
  scale : format.scale = "*factor"
  indent : ∀ c ∈ format.indent.toList, c = ' '

theorem Unscaled.isBlank_indent {format : StatementFormat} (h : Unscaled format) :
    ∀ c ∈ format.indent.toList, isBlank c = true := by
  intro c hc
  exact h.indent c hc ▸ isBlank_space

theorem Unscaled.oneLine {format : StatementFormat} (h : Unscaled format) : format.OneLine where
  accumulator := by rw [h.accumulator]; decide
  factor := by rw [h.factor]; decide
  scale := by rw [h.scale]; decide
  indent := fun hmem => absurd (h.indent _ hmem) (by decide)
  blank := h.isBlank_indent

namespace Statement

variable {s : Statement}

/-- The text of a statement up to its semicolon. -/
def clause (s : Statement) : List Char :=
  'd' :: 's' :: '-' :: '>' :: (s.slot.toList ++ [' ', '+'] ++ '=' :: ' ' :: '(' ::
    (s.value.toList ++ [')', '*', 'f', 'a', 'c', 't', 'o', 'r']))

theorem toList_text {format : StatementFormat} (h : Unscaled format) :
    (s.text format).toList = s.clause ++ [';'] := by
  rw [text, h.accumulator, h.factor, h.scale]
  simp [clause]

/-- Texts of values hold neither line feeds nor signs of assignment. -/
theorem plain {format : StatementFormat} (h : Unscaled format) (hvalue : Inline s.value) :
    s.Plain format where
  value := fun hmem => absurd (inline_iff.mp hvalue _ hmem) (by decide)
  unassigned := fun hmem => absurd (inline_iff.mp hvalue _ hmem) (by decide)
  code := by
    have hletter : isBlank 'd' = false := by decide
    rw [h.accumulator, String.toList_append]
    simp [List.dropWhile_cons_of_neg, hletter]

theorem slot?_clause : slot? s.clause = some s.slot := by
  have hslot : ∀ c ∈ s.slot.toList, (c != ' ') = true := by
    intro c hc
    rw [bne_iff_ne]
    rintro rfl
    exact notMem_slot (by decide) hc
  have hafter : (' ' != ' ') = false := by decide
  unfold slot? clause
  simp only
  rw [List.append_assoc, List.takeWhile_append_of_pos hslot, List.dropWhile_append_of_pos hslot]
  simp

theorem opens_clause : Opens s.clause :=
  ⟨'d', _, rfl, by decide, by decide⟩

theorem opens_text (s : Statement) : Opens (s.clause ++ [';']) :=
  ⟨'d', _, rfl, by decide, by decide⟩

theorem continues_clause (hvalue : Inline s.value) : ∀ c ∈ s.clause, Continues c := by
  have hslot : ∀ c ∈ s.slot.toList, Continues c := fun c hc =>
    continues_of_isInline (isInline_of_isWordChar (isWordChar_of_mem_slot hc))
  have hinner : ∀ c ∈ s.value.toList, Continues c := fun c hc =>
    continues_of_isInline (inline_iff.mp hvalue c hc)
  unfold clause
  simp only [List.forall_mem_cons, List.forall_mem_append]
  exact ⟨by decide, by decide, by decide, by decide, ⟨hslot, by simp [Continues]⟩, by decide,
    by decide, by decide, hinner, by simp [Continues]⟩

end Statement

/-! ### Lines of statements -/

section Layout

variable {holds} {format : StatementFormat} {s : Statement} {statements : List Statement}

/-- The line of a statement. -/
def Statement.line (format : StatementFormat) (s : Statement) : List Char :=
  format.indent.toList ++ (s.clause ++ [';'])

/-- The lines of statements that follow one of order `previous`. -/
def Statement.lines (format : StatementFormat) (previous : Option ℕ) :
    List Statement → List (List Char)
  | [] => []
  | s :: rest =>
    (if format.separateOrders && previous.any (· != s.order) then [[]] else []) ++
      s.line format :: lines format (some s.order) rest

theorem Statement.line_eq (h : Unscaled format) : s.line format = s.indented format := by
  rw [line, indented, toList_text h]

theorem lines_eq (h : Unscaled format) :
    Statement.lines format none statements = format.blockLines (·.indented format) statements := by
  have hafter : ∀ s rest, s.line format :: Statement.lines format (some s.order) rest =
      format.blockLines (·.indented format) (s :: rest) := by
    intro s rest
    induction rest generalizing s with
    | nil => rw [Statement.lines, Statement.line_eq h, StatementFormat.blockLines]
    | cons t rest ih =>
      rw [Statement.lines, ih, Statement.line_eq h, StatementFormat.blockLines]
      simp
  cases statements with
  | nil => rfl
  | cons s rest =>
    rw [← hafter, Statement.lines]
    simp

/-- A line is commented out if its statement adds zero. -/
theorem commentLine_line (h : Unscaled format) (hvalue : Inline s.value) :
    commentLine format.zeroTail.toList (s.line format) =
      if s.isZero then format.indent.toList ++ ['/', '/', ' '] ++ (s.clause ++ [';'])
      else s.line format := by
  rw [Statement.line_eq h, s.commentLine_indented h.oneLine (s.plain h hvalue), Statement.written,
    ← Statement.line_eq h, Statement.line, takeWhile_blank h.isBlank_indent s.opens_text,
    dropWhile_blank h.isBlank_indent s.opens_text]
  simp [Statement.isZero]

theorem map_commentLine_lines (h : Unscaled format) (hvalues : ∀ s ∈ statements, Inline s.value) :
    (Statement.lines format none statements).map (commentLine format.zeroTail.toList) =
      format.blockLines (·.written format) statements := by
  rw [lines_eq h]
  exact StatementFormat.map_commentLine h.oneLine fun s hs => s.plain h (hvalues s hs)

theorem toList_layout (h : Unscaled format) (hvalues : ∀ s ∈ statements, Inline s.value) :
    (format.layout statements).toList =
      unlines ((Statement.lines format none statements).map
        (commentLine format.zeroTail.toList)) := by
  rw [map_commentLine_lines h hvalues]
  exact StatementFormat.toList_layout h.oneLine fun s hs => s.plain h (hvalues s hs)

theorem isLine_commented (h : Unscaled format) (hvalues : ∀ s ∈ statements, Inline s.value) :
    ∀ line ∈ (Statement.lines format none statements).map (commentLine format.zeroTail.toList),
      IsLine line := by
  rw [map_commentLine_lines h hvalues]
  exact StatementFormat.isLine_of_mem_blockLines h.oneLine fun s hs => s.plain h (hvalues s hs)

namespace Progress.Ready

variable {p : Progress} {blocks : List Bool} {guard : Bool} {done : List (List Char)}

theorem emptyLine (h : Ready p blocks guard done) :
    Ready (p.readLine holds []) blocks guard done :=
  h.blanks (List.forall_mem_singleton.mpr (by decide))

/-- The line of a statement is that statement. -/
theorem line (hformat : Unscaled format) (hvalue : Inline s.value)
    (h : Ready p blocks guard done) :
    Ready (p.readLine holds (s.line format)) blocks true
      (done ++ if blocks.all id && guard then [s.clause] else []) := by
  have hcode : ['/', '/'].isPrefixOf ((s.line format).dropWhile isBlank) = false := by
    rw [Statement.line, dropWhile_blank hformat.isBlank_indent s.opens_text]
    rfl
  rw [readLine, hcode, if_neg Bool.false_ne_true, Statement.line, List.foldl_append,
    List.foldl_append]
  exact ((h.blanks hformat.isBlank_indent).statement s.opens_clause
    (s.continues_clause hvalue)).blanks (List.forall_mem_singleton.mpr (by decide))

/-- A statement that adds zero is left out. -/
theorem commented (hformat : Unscaled format) (h : Ready p blocks guard done) :
    Ready (p.readLine holds (format.indent.toList ++ ['/', '/', ' '] ++ (s.clause ++ [';'])))
      blocks guard done := by
  have hcomment : ['/', '/'].isPrefixOf
      ((format.indent.toList ++ ['/', '/', ' '] ++ (s.clause ++ [';'])).dropWhile isBlank) =
        true := by
    rw [List.append_assoc, List.dropWhile_append_of_pos hformat.isBlank_indent]
    rfl
  rw [readLine, if_pos hcomment]
  exact h

/-- **Statements are executed where the open blocks are, but for those that add
zero.** -/
theorem layout (hformat : Unscaled format) (hvalues : ∀ s ∈ statements, Inline s.value)
    (h : Ready p blocks true done) (previous : Option ℕ) :
    Ready (((Statement.lines format previous statements).map
        (commentLine format.zeroTail.toList)).foldl (readLine holds) p) blocks true
      (done ++ if blocks.all id then (statements.filter (!·.isZero)).map Statement.clause
        else []) := by
  induction statements generalizing p done previous with
  | nil => simpa [Statement.lines] using h
  | cons s rest ih =>
    obtain ⟨hs, hrest⟩ := List.forall_mem_cons.mp hvalues
    have hgap : Ready (((if format.separateOrders && previous.any (· != s.order) then [[]]
        else []).map (commentLine format.zeroTail.toList)).foldl (readLine holds) p) blocks true
        done := by
      split
      · rw [List.map_singleton, StatementFormat.commentLine_zeroTail_nil]
        show Ready (p.readLine holds []) blocks true done
        exact h.emptyLine
      · exact h
    rw [Statement.lines, List.map_append, List.foldl_append, List.map_cons, List.foldl_cons,
      commentLine_line hformat hs]
    cases hzero : s.isZero with
    | true =>
      rw [if_pos rfl, List.filter_cons_of_neg (by simp [hzero])]
      exact ih hrest (hgap.commented hformat) _
    | false =>
      rw [if_neg Bool.false_ne_true, List.filter_cons_of_pos (by simp [hzero])]
      have hline : Ready (readLine holds _ (s.line format)) blocks true _ := hgap.line hformat hs
      have hnext := ih hrest hline (some s.order)
      rw [Bool.and_true, List.append_assoc] at hnext
      cases hall : blocks.all id <;> simpa [hall] using hnext

end Progress.Ready

end Layout

/-! ### Guards -/

section Guards

variable {holds} {p : Progress} {blocks : List Bool} {guard : Bool} {done : List (List Char)}
  {line : List Char} {density constant block : String} {statements : List Statement}

/-- The condition that a density is above a threshold. -/
def aboveThreshold (density constant : String) : List Char :=
  density.toList ++ '>' :: constant.toList

/-- A condition is a comparison of names. -/
structure Comparison (density constant : String) : Prop where
  left : ∀ c ∈ density.toList, isWordChar c = true ∨ c = '-' ∨ c = '>'
  right : ∀ c ∈ constant.toList, isWordChar c = true

theorem Comparison.continues (h : Comparison density constant) :
    ∀ c ∈ aboveThreshold density constant, Continues c ∧ c ≠ ')' ∧ c ≠ '\n' := by
  have hword : ∀ c, isWordChar c = true → Continues c ∧ c ≠ ')' ∧ c ≠ '\n' := by
    intro c hc
    refine ⟨continues_of_isInline (isInline_of_isWordChar hc), ?_, ?_⟩
    · rintro rfl
      exact absurd hc (by decide)
    · rintro rfl
      exact absurd hc (by decide)
  refine List.forall_mem_append.mpr ⟨fun c hc => ?_, List.forall_mem_cons.mpr
    ⟨by decide, fun c hc => hword c (h.right c hc)⟩⟩
  rcases h.left c hc with hc | rfl | rfl
  · exact hword c hc
  · decide
  · decide

/-- The front of a line with a condition. -/
def conditionLine (density constant : String) : List Char :=
  [' ', ' '] ++ ('i' :: 'f' :: ' ' :: '(' :: (aboveThreshold density constant ++ [')']))

theorem toList_guarded {lines : List (List Char)} (hblock : block.toList = unlines lines)
    (single : Bool) : (guarded density constant block single).toList =
      unlines (if single then conditionLine density constant :: lines
        else (conditionLine density constant ++ [' ', '\x7b']) :: lines ++
          [[' ', ' ', ' ', ' ', ' ', '\x7d']]) := by
  cases single with
  | true => simp [guarded, conditionLine, aboveThreshold, hblock]
  | false => simp [guarded, conditionLine, aboveThreshold, hblock]

namespace Progress

/-- A line that is no comment is read character by character. -/
theorem readLine_of_code (h : ['/', '/'].isPrefixOf (line.dropWhile isBlank) = false) :
    p.readLine holds line = (line ++ ['\n']).foldl (read holds) p :=
  if_neg (by simp [h])

namespace Ready

/-- The front of a line with a condition adds it to those of the next statement. -/
theorem conditionFront (hcomparison : Comparison density constant)
    (h : Ready p blocks guard done) :
    Ready ((C.conditionLine density constant).foldl (read holds) p) blocks
      (guard && holds (aboveThreshold density constant)) done := by
  rw [C.conditionLine, List.foldl_append]
  exact (h.blanks (by simp [isBlank_space])).condition (fun c hc => (hcomparison.continues c hc).1)
    fun hparen => (hcomparison.continues _ hparen).2.1 rfl

theorem conditionLine (hcomparison : Comparison density constant)
    (h : Ready p blocks guard done) :
    Ready (p.readLine holds (C.conditionLine density constant)) blocks
      (guard && holds (aboveThreshold density constant)) done := by
  rw [readLine_of_code rfl, List.foldl_append]
  exact (h.conditionFront hcomparison).blanks (List.forall_mem_singleton.mpr (by decide))

theorem openingLine (hcomparison : Comparison density constant)
    (h : Ready p blocks guard done) :
    Ready (p.readLine holds (C.conditionLine density constant ++ [' ', '\x7b']))
      ((guard && holds (aboveThreshold density constant)) :: blocks) true done := by
  rw [readLine_of_code rfl, List.foldl_append, List.foldl_append]
  have hcondition : Ready ((C.conditionLine density constant).foldl (read holds) p) blocks _ done :=
    h.conditionFront hcomparison
  have hfront : Ready ([' '].foldl (read holds) _) blocks _ done :=
    hcondition.blanks (List.forall_mem_singleton.mpr isBlank_space)
  have hopen : Ready (read holds _ '\x7b') _ true done := hfront.enterBlock
  exact hopen.blanks (List.forall_mem_singleton.mpr (by decide))

theorem closingLine {inner : Bool} (h : Ready p (inner :: blocks) guard done) :
    Ready (p.readLine holds [' ', ' ', ' ', ' ', ' ', '\x7d']) blocks true done := by
  have hline : [' ', ' ', ' ', ' ', ' ', '\x7d'] ++ ['\n'] =
      [' ', ' ', ' ', ' ', ' '] ++ (['\x7d'] ++ ['\n']) := rfl
  rw [readLine_of_code rfl, hline, List.foldl_append, List.foldl_append]
  have hfront : Ready ([' ', ' ', ' ', ' ', ' '].foldl (read holds) p) _ _ _ :=
    h.blanks (by simp [isBlank_space])
  have hclose : Ready (read holds _ '\x7d') _ true done := hfront.leaveBlock
  exact hclose.blanks (List.forall_mem_singleton.mpr (by decide))

end Ready

end Progress

/-- A single statement stands under its condition, several in a block. -/
def isSingle (statements : List Statement) : Bool :=
  match statements with
  | [s] => !s.isZero
  | _ => false

theorem exists_of_isSingle (h : isSingle statements = true) :
    ∃ s, statements = [s] ∧ s.isZero = false := by
  unfold isSingle at h
  split at h
  · next s => exact ⟨s, rfl, by simpa using h⟩
  · exact absurd h Bool.false_ne_true

/-- The lines of statements under a condition. -/
def guardedLines (format : StatementFormat) (density constant : String)
    (statements : List Statement) : List (List Char) :=
  let lines := (Statement.lines format none statements).map (commentLine format.zeroTail.toList)
  if isSingle statements then conditionLine density constant :: lines
  else (conditionLine density constant ++ [' ', '\x7b']) :: lines ++
    [[' ', ' ', ' ', ' ', ' ', '\x7d']]

theorem toList_guardedLayout {format : StatementFormat} (hformat : Unscaled format)
    (hvalues : ∀ s ∈ statements, Inline s.value) :
    (guarded density constant (format.layout statements) (isSingle statements)).toList =
      unlines (guardedLines format density constant statements) :=
  toList_guarded (toList_layout hformat hvalues) _

/-- **Statements under a condition are executed where it holds, but for those that
add zero**, and what comes after them is not governed by it. -/
theorem Progress.Ready.guardedLines {format : StatementFormat} (hformat : Unscaled format)
    (hvalues : ∀ s ∈ statements, Inline s.value) (hcomparison : Comparison density constant)
    (h : Ready p blocks true done) :
    Ready ((C.guardedLines format density constant statements).foldl (readLine holds) p) blocks true
      (done ++ if blocks.all id && holds (aboveThreshold density constant) then
        (statements.filter (!·.isZero)).map Statement.clause else []) := by
  unfold C.guardedLines
  dsimp only
  split
  · next hsingle =>
    obtain ⟨s, rfl, hzero⟩ := exists_of_isSingle hsingle
    have hlines : (Statement.lines format none [s]).map (commentLine format.zeroTail.toList) =
        [s.line format] := by
      have hline := commentLine_line hformat (hvalues s List.mem_cons_self)
      rw [hzero, if_neg Bool.false_ne_true] at hline
      simp [Statement.lines, hline]
    rw [hlines, List.filter_cons_of_pos (by simp [hzero])]
    have hguard : Ready (readLine holds p (C.conditionLine density constant)) blocks _ done :=
      h.conditionLine hcomparison
    exact hguard.line hformat (hvalues s List.mem_cons_self)
  · rw [List.cons_append, List.foldl_cons, List.foldl_append, List.foldl_cons, List.foldl_nil]
    have hopen : Ready (readLine holds p (C.conditionLine density constant ++ [' ', '\x7b'])) _ true
        done := h.openingLine hcomparison
    have hinner : Ready (List.foldl (readLine holds) _ _) _ true _ :=
      hopen.layout hformat hvalues none
    have hall : ((true && holds (aboveThreshold density constant)) :: blocks).all id =
        (blocks.all id && holds (aboveThreshold density constant)) := by
      simp [Bool.and_comm]
    rw [hall] at hinner
    exact hinner.closingLine

end Guards

/-! ### Blocks of lines -/

/-- Whole lines that execute some statements wherever they stand in a routine. -/
def Executes (holds : List Char → Bool) (text : String) (statements : List (List Char)) : Prop :=
  ∃ lines, text.toList = unlines lines ∧ (∀ line ∈ lines, IsLine line) ∧
    ∀ p done, Progress.Ready p [true] true done →
      Progress.Ready (lines.foldl (Progress.readLine holds) p) [true] true (done ++ statements)

namespace Executes

variable {holds : List Char → Bool} {text text' : String} {done done' : List (List Char)}

theorem empty : Executes holds "" [] :=
  ⟨[], rfl, List.forall_mem_nil _, fun _ _ h => by simpa using h⟩

theorem emptyLine : Executes holds "\n" [] :=
  ⟨[[]], rfl, List.forall_mem_singleton.mpr List.not_mem_nil, fun _ _ h => by
    simpa using h.emptyLine⟩

theorem append (h : Executes holds text done) (h' : Executes holds text' done') :
    Executes holds (text ++ text') (done ++ done') := by
  obtain ⟨lines, htext, hlines, hread⟩ := h
  obtain ⟨lines', htext', hlines', hread'⟩ := h'
  refine ⟨lines ++ lines', ?_, List.forall_mem_append.mpr ⟨hlines, hlines'⟩, fun p d hp => ?_⟩
  · rw [String.toList_append, htext, htext', unlines_append]
  · rw [List.foldl_append, ← List.append_assoc]
    exact hread' _ _ (hread p d hp)

theorem join {texts : List String} {statements : List (List (List Char))}
    (h : List.Forall₂ (Executes holds) texts statements) :
    Executes holds (String.join texts) statements.flatten := by
  induction h with
  | nil => exact empty
  | cons hfirst _ ih =>
    rw [String.join_cons, List.flatten_cons]
    exact hfirst.append ih

theorem intercalate {texts : List String} {statements : List (List (List Char))}
    (h : List.Forall₂ (Executes holds) texts statements) :
    Executes holds (String.intercalate "\n" texts) statements.flatten := by
  cases h with
  | nil => exact empty
  | @cons text first texts rest hfirst hrest =>
    induction hrest generalizing text first with
    | nil => simpa using hfirst
    | @cons text' second texts rest hsecond _ ih =>
      rw [String.intercalate_cons_cons, List.flatten_cons]
      have hfront := hfirst.append emptyLine
      rw [List.append_nil] at hfront
      exact hfront.append (ih hsecond)

variable {format : StatementFormat} {statements : List Statement} {density constant : String}

theorem layout (hformat : Unscaled format) (hvalues : ∀ s ∈ statements, Inline s.value) :
    Executes holds (format.layout statements)
      ((statements.filter (!·.isZero)).map Statement.clause) := by
  exact ⟨_, toList_layout hformat hvalues, isLine_commented hformat hvalues,
    fun p done h => h.layout hformat hvalues none⟩

theorem guarded (hformat : Unscaled format) (hvalues : ∀ s ∈ statements, Inline s.value)
    (hcomparison : Comparison density constant) :
    Executes holds (C.guarded density constant (format.layout statements) (isSingle statements))
      (if holds (aboveThreshold density constant) then
        (statements.filter (!·.isZero)).map Statement.clause else []) := by
  refine ⟨_, toList_guardedLayout hformat hvalues, ?_, fun p done h =>
    h.guardedLines hformat hvalues hcomparison⟩
  have hcondition : IsLine (conditionLine density constant) := by
    have hinner : '\n' ∉ aboveThreshold density constant := fun hmem =>
      (hcomparison.continues _ hmem).2.2 rfl
    simp [IsLine, conditionLine, hinner]
  have hlines := isLine_commented hformat hvalues
  unfold guardedLines
  dsimp only
  split
  · exact List.forall_mem_cons.mpr ⟨hcondition, hlines⟩
  · refine List.forall_mem_append.mpr ⟨List.forall_mem_cons.mpr ⟨?_, hlines⟩, by simp [IsLine]⟩
    simpa [IsLine] using hcondition

end Executes

/-- Whole lines that add to some slots wherever they stand in a routine. -/
def Fills (holds : List Char → Bool) (text : String) (slots : List String) : Prop :=
  ∃ statements, Executes holds text statements ∧ statements.filterMap slot? = slots

namespace Fills

variable {holds : List Char → Bool} {texts : List String} {slots : List (List String)}

theorem exists_executes (h : List.Forall₂ (Fills holds) texts slots) :
    ∃ statements, List.Forall₂ (Executes holds) texts statements ∧
      statements.flatten.filterMap slot? = slots.flatten := by
  induction h with
  | nil => exact ⟨[], .nil, rfl⟩
  | cons hfirst _ ih =>
    obtain ⟨first, hexecutes, rfl⟩ := hfirst
    obtain ⟨statements, hall, hslots⟩ := ih
    refine ⟨first :: statements, .cons hexecutes hall, ?_⟩
    rw [List.flatten_cons, List.filterMap_append, hslots, List.flatten_cons]

theorem join (h : List.Forall₂ (Fills holds) texts slots) :
    Fills holds (String.join texts) slots.flatten := by
  obtain ⟨statements, hall, hslots⟩ := exists_executes h
  exact ⟨_, .join hall, hslots⟩

theorem intercalate (h : List.Forall₂ (Fills holds) texts slots) :
    Fills holds (String.intercalate "\n" texts) slots.flatten := by
  obtain ⟨statements, hall, hslots⟩ := exists_executes h
  exact ⟨_, .intercalate hall, hslots⟩

end Fills

theorem filterMap_slot?_clauses (statements : List Statement) :
    (statements.map Statement.clause).filterMap slot? = statements.map Statement.slot := by
  induction statements with
  | nil => rfl
  | cons s rest ih =>
    rw [List.map_cons, List.filterMap_cons_some Statement.slot?_clause, ih, List.map_cons]

/-! ### Frames -/

section Frames

variable {holds} {name body : String} {order : DerivativeOrder} {lines : List (List Char)}

/-- The line that names a routine and its parameters. -/
def signature (name : String) (order : DerivativeOrder) : List Char :=
  (name ++ "_" ++ (derivativeSignature order).1 ++ "(" ++ (derivativeSignature order).2
    ++ " *ds, real factor, const FunDensProp* dp)").toList

/-- The line in front of the name of a routine. -/
def resultLine : List Char :=
  ['s', 't', 'a', 't', 'i', 'c', ' ', 'v', 'o', 'i', 'd']

/-- What stands in front of the statements of a routine. -/
def frontLines (name : String) (order : DerivativeOrder) : List (List Char) :=
  [[], resultLine, signature name order, ['\x7b']]

theorem toList_derivativeFrame (hbody : body.toList = unlines lines) :
    (derivativeFrame name order body).toList =
      unlines (frontLines name order ++ lines ++ [['\x7d']]) := by
  simp [derivativeFrame, linesText, frontLines, resultLine, signature, hbody]

/-- An identifier, as the name of a routine has to be. -/
def IsName (name : String) : Prop :=
  name ≠ "" ∧ ∀ c ∈ name.toList, isWordChar c = true

theorem ne_mark_of_isWordChar {c : Char} (h : isWordChar c = true) : Continues c ∧ c ≠ '\n' := by
  refine ⟨continues_of_isInline (isInline_of_isWordChar h), ?_⟩
  rintro rfl
  exact absurd h (by decide)

theorem continues_signature (hname : IsName name) :
    ∀ c ∈ signature name order, Continues c ∧ c ≠ '\n' := by
  have htext : ∀ s : String, s.toList.all (fun c => decide (Continues c ∧ c ≠ '\n')) = true →
      ∀ c ∈ s.toList, Continues c ∧ c ≠ '\n' := fun s h c hc =>
    of_decide_eq_true (List.all_eq_true.mp h c hc)
  have hending : ∀ c ∈ (derivativeSignature order).1.toList, Continues c ∧ c ≠ '\n' := by
    unfold derivativeSignature
    split <;> exact htext _ (by decide)
  have hstate : ∀ c ∈ (derivativeSignature order).2.toList, Continues c ∧ c ≠ '\n' := by
    unfold derivativeSignature
    split <;> exact htext _ (by decide)
  rw [signature]
  simp only [String.toList_append, List.forall_mem_append]
  exact ⟨⟨⟨⟨⟨fun c hc => ne_mark_of_isWordChar (hname.2 c hc), htext _ (by decide)⟩, hending⟩,
    htext _ (by decide)⟩, hstate⟩, htext _ (by decide)⟩

/-- The name of a routine begins the line of its parameters. -/
theorem exists_cons_signature (hname : IsName name) :
    ∃ c cs, signature name order = c :: cs ∧ isWordChar c = true := by
  obtain ⟨hne, hword⟩ := hname
  obtain ⟨c, cs, hcs⟩ := List.exists_cons_of_ne_nil (mt String.toList_eq_nil_iff.mp hne)
  have hc : isWordChar c = true := hword c (hcs ▸ List.mem_cons_self)
  simp only [signature, String.toList_append, hcs, List.cons_append]
  exact ⟨c, _, rfl, hc⟩

theorem isBlank_of_isWordChar {c : Char} (h : isWordChar c = true) : isBlank c = false := by
  refine Formula.isBlank_of_opens ?_
  simp only [isWordChar, Char.isAlphanum, Bool.or_eq_true] at h
  simp only [Formula.opens, DensityKernel.Token.startsNumber, DensityKernel.Token.startsName,
    Bool.or_eq_true]
  grind

variable (holds) (order) in
/-- The front of a routine opens its block. -/
theorem ready_front (hname : IsName name) :
    Progress.Ready ((frontLines name order).foldl (Progress.readLine holds) {}) [true] true [] := by
  have hcode : ['/', '/'].isPrefixOf ((signature name order).dropWhile isBlank) = false := by
    obtain ⟨c, cs, hcs, hc⟩ : ∃ c cs, signature name order = c :: cs ∧ isWordChar c = true :=
      exists_cons_signature hname
    have hslash : '/' ≠ c := by
      rintro rfl
      exact absurd hc (by decide)
    rw [hcs, List.dropWhile_cons_of_neg (by simp [isBlank_of_isWordChar hc])]
    rw [List.isPrefixOf, beq_eq_false_iff_ne.mpr hslash, Bool.false_and]
  have htext : ∀ c ∈ resultLine ++ '\n' :: (signature name order ++ ['\n']), Continues c := by
    refine List.forall_mem_append.mpr ⟨by simp [resultLine, Continues], List.forall_mem_cons.mpr
      ⟨by decide, List.forall_mem_append.mpr
        ⟨fun c hc => (continues_signature hname c hc).1, by simp [Continues]⟩⟩⟩
  have hstart : Progress.Ready {} [] true [] := ⟨rfl, rfl, rfl, List.forall_mem_nil _⟩
  have hempty : Progress.Ready (Progress.readLine holds {} []) [] true [] := hstart.emptyLine
  have hopens : Opens (resultLine ++ '\n' :: (signature name order ++ ['\n'])) :=
    ⟨'s', _, rfl, by decide, by decide⟩
  have henter : Progress.Ready (List.foldl (Progress.read holds) _ _) [true] true [] :=
    hempty.enter hopens htext
  have hready : Progress.Ready (List.foldl (Progress.read holds) _ _) [true] true [] :=
    henter.blanks (List.forall_mem_singleton.mpr (by decide : isBlank '\n' = true))
  rw [frontLines, List.foldl_cons, List.foldl_cons, List.foldl_cons, List.foldl_cons, List.foldl_nil,
    Progress.readLine_of_code hcode, Progress.readLine_of_code rfl, Progress.readLine_of_code rfl]
  simpa only [← List.foldl_append, List.append_assoc, List.cons_append, List.nil_append]
    using hready

/-- **What a routine executes.** -/
theorem executed_derivativeFrame (hname : IsName name) {done : List (List Char)}
    (hbody : Executes holds body done) :
    executed holds (derivativeFrame name order body) = done := by
  obtain ⟨lines, hlist, hlines, hbody⟩ := hbody
  have hfront : ∀ line ∈ frontLines name order, IsLine line := by
    have hsignature : IsLine (signature name order) := fun hmem =>
      (continues_signature hname _ hmem).2 rfl
    simp only [frontLines, List.forall_mem_cons]
    exact ⟨List.not_mem_nil, by simp [IsLine, resultLine], hsignature, by simp [IsLine],
      List.forall_mem_nil _⟩
  have hall : ∀ line ∈ frontLines name order ++ lines ++ [['\x7d']], IsLine line :=
    List.forall_mem_append.mpr ⟨List.forall_mem_append.mpr ⟨hfront, hlines⟩, by simp [IsLine]⟩
  have hread : Progress.Ready (List.foldl (Progress.readLine holds) _ lines) [true] true done :=
    hbody _ [] (ready_front holds order hname)
  have hclose : Progress.Ready (Progress.read holds _ '\x7d') [] true done := hread.leaveBlock
  have hline : Progress.Ready (List.foldl (Progress.read holds) _ _) [] true done :=
    hclose.blanks (List.forall_mem_singleton.mpr (by decide : isBlank '\n' = true))
  have hend : Progress.Ready (Progress.readLine holds _ []) [] true done := hline.emptyLine
  rw [executed, toList_derivativeFrame hlist, splitLines_of_unlines hall, List.foldl_append,
    List.foldl_append, List.foldl_append]
  exact hend.executed_eq

/-- **What a routine adds to.** -/
theorem executedSlots_derivativeFrame (hname : IsName name) {slots : List String}
    (hbody : Fills holds body slots) :
    executedSlots holds (derivativeFrame name order body) = slots := by
  obtain ⟨statements, hexecutes, hslots⟩ := hbody
  rw [executedSlots, executed_derivativeFrame hname hexecutes, hslots]

end Frames

end DensityKernel.C
