import DensityKernel.C.Statement
import DensityKernel.Proofs.C.Token
import DensityKernel.Proofs.C.ZeroLines
import DensityKernel.Proofs.Formula.Token

/-!
The layout of statements, line by line. A line is commented out because of how it
ends, and the text that stands around the values is arbitrary, so the end could be
that of something longer. It is not: no value holds a sign of assignment, and what
follows the last one in front of the scale is the factor and the value
(`suffix_text_iff`). So the lines that are commented out are those of the statements
that add zero, and no others (`splitLines_layout`).
-/

namespace DensityKernel.C

open Text

/-! ### Texts with one end -/

section Texts

variable {c : Char} {xs ys front marked v w : List Char}

/-- If a text is the end of a longer one, then both have the same characters after the last `c`. -/
theorem eq_of_suffix_of_notMem (hmarked : c ∈ marked) (hv : c ∉ v) (hw : c ∉ w)
    (h : marked ++ w <:+ front ++ (marked ++ v)) : w = v := by
  obtain ⟨rest, hrest⟩ := h
  -- read backwards up to the first `c`
  have hread : ∀ {tail xs : List Char}, c ∉ xs →
      (tail ++ (marked ++ xs)).reverse.takeWhile (· != c) =
        xs.reverse ++ marked.reverse.takeWhile (· != c) := by
    intro tail xs hxs
    obtain ⟨as, bs, hsplit, has⟩ := List.eq_append_cons_of_mem (List.mem_reverse.mpr hmarked)
    have hpass : ∀ {l : List Char}, c ∉ l → ∀ a ∈ l, (a != c) = true := by
      rintro l hl a ha
      exact bne_iff_ne.mpr fun heq => hl (heq ▸ ha)
    rw [List.reverse_append, List.reverse_append, hsplit, List.append_assoc, List.append_assoc,
      List.cons_append, List.takeWhile_append_of_pos (hpass (mt List.mem_reverse.mp hxs)),
      List.takeWhile_append_of_pos (hpass has), List.takeWhile_append_of_pos (hpass has),
      List.takeWhile_cons_of_neg (by simp), List.takeWhile_cons_of_neg (by simp)]
  have hback : w.reverse ++ marked.reverse.takeWhile (· != c) =
      v.reverse ++ marked.reverse.takeWhile (· != c) := by
    rw [← hread hw, ← hread hv, hrest]
  exact List.reverse_injective (List.append_cancel_right hback)

/-- Blanks are dropped up to a character that is none. -/
theorem dropWhile_append_cons (hc : isBlank c = false) :
    (xs ++ c :: ys).dropWhile isBlank = xs.dropWhile isBlank ++ c :: ys := by
  rw [List.dropWhile_append, List.dropWhile_cons_of_neg (by simp [hc])]
  split_ifs with hempty
  · rw [List.isEmpty_iff.mp hempty, List.nil_append]
  · rfl

end Texts

/-! ### The text of a statement -/

section Statements

variable {format : StatementFormat} {s : Statement} {statements : List Statement}

theorem Statement.toList_slot (s : Statement) : ∃ name, s.slot.toList = 'd' :: 'f' :: name := by
  rw [slot, MultiIndex.slot]
  simp only [String.toList_append, List.append_assoc]
  exact ⟨_, rfl⟩

/-- The name of a slot is made of letters and digits. -/
theorem Statement.isWordChar_of_mem_slot {c : Char} (h : c ∈ s.slot.toList) :
    isWordChar c = true := by
  have hdigits : ∀ n : ℕ, ∀ c ∈ (toString n).toList, isWordChar c = true := by
    intro n c hc
    rw [show (toString n).toList = Nat.toDigits 10 n from String.toList_ofList] at hc
    exact isWordChar_of_isDigit (Nat.isDigit_of_mem_toDigits (by decide) (by decide) hc)
  rw [slot, MultiIndex.slot] at h
  simp only [String.toList_append, List.mem_append] at h
  rcases h with ((((h | h) | h) | h) | h) | h
  · exact List.all_eq_true.mp (by decide : "df".toList.all isWordChar = true) c h
  · exact hdigits _ c h
  · exact hdigits _ c h
  · exact hdigits _ c h
  · exact hdigits _ c h
  · split at h
    · exact hdigits _ c h
    · exact absurd h (by simp)

theorem Statement.notMem_slot {c : Char} (h : isWordChar c = false) : c ∉ s.slot.toList :=
  fun hmem => absurd (h.symm.trans (isWordChar_of_mem_slot hmem)) (by decide)

/-- What stands in front of the value, from the sign of assignment on. -/
def StatementFormat.opening (format : StatementFormat) : List Char :=
  '=' :: ' ' :: (format.factor.toList ++ ['('])

/-- What stands after the value. -/
def StatementFormat.closing (format : StatementFormat) : List Char :=
  ')' :: (format.scale.toList ++ [';'])

theorem StatementFormat.toList_zeroTail :
    format.zeroTail.toList = (format.opening ++ ['0']) ++ format.closing := by
  simp [zeroTail, opening, closing]

theorem StatementFormat.zeroTail_ne_nil (format : StatementFormat) :
    format.zeroTail.toList ≠ [] := by
  simp [toList_zeroTail, opening]

theorem StatementFormat.isBlank_head_zeroTail (format : StatementFormat) :
    ∀ c ∈ format.zeroTail.toList.head?, isBlank c = false := by
  have hequals : isBlank '=' = false := by decide
  simp [toList_zeroTail, opening, hequals]

theorem Statement.toList_text_eq :
    (s.text format).toList =
      (format.accumulator ++ s.slot).toList ++ ([' ', '+'] ++
        (format.opening ++ s.value.toList) ++ format.closing) := by
  simp [text, StatementFormat.opening, StatementFormat.closing]

/-- **A statement ends as one that adds zero only if its value is the text of zero**, whatever
stands in front of it. -/
theorem Statement.suffix_text_iff {front : List Char} (hvalue : '=' ∉ s.value.toList) :
    format.zeroTail.toList <:+
        front ++ ([' ', '+'] ++ (format.opening ++ s.value.toList) ++ format.closing) ↔
      s.value = "0" := by
  have hfront : front ++ ([' ', '+'] ++ (format.opening ++ s.value.toList) ++ format.closing) =
      ((front ++ [' ', '+']) ++ (format.opening ++ s.value.toList)) ++ format.closing := by
    simp only [List.append_assoc]
  rw [hfront, StatementFormat.toList_zeroTail, List.suffix_append_self_iff]
  constructor
  · intro hsuffix
    have hmarked : '=' ∈ format.opening := List.mem_cons_self
    rw [← String.ofList_toList (s := s.value),
      ← eq_of_suffix_of_notMem hmarked hvalue (by decide) hsuffix]
  · rintro hzero
    rw [hzero]
    exact List.suffix_append _ _

/-! ### Lines -/

/-- The line of a statement before statements that add zero are commented out. -/
def Statement.indented (format : StatementFormat) (s : Statement) : List Char :=
  format.indent.toList ++ (s.text format).toList

/-- The line of a statement. If its value is the text of zero, a comment mark follows the leading
blanks. -/
def Statement.written (format : StatementFormat) (s : Statement) : List Char :=
  if s.value = "0" then
    (s.indented format).takeWhile isBlank ++ "// ".toList ++ (s.indented format).dropWhile isBlank
  else s.indented format

/-- The lines of a block, one for each statement and an empty one between statements of different
orders. -/
def StatementFormat.blockLines (format : StatementFormat) (line : Statement → List Char) :
    List Statement → List (List Char)
  | [] => []
  | [s] => [line s]
  | s :: t :: rest =>
    line s :: ((if format.separateOrders ∧ s.order ≠ t.order then [[]] else []) ++
      format.blockLines line (t :: rest))

/-- Only a statement that adds zero is changed. -/
theorem Statement.written_eq_iff : s.written format = s.indented format ↔ s.value ≠ "0" := by
  unfold written
  split_ifs with hzero
  · refine iff_of_false (fun heq => ?_) (not_not.mpr hzero)
    have hsplit := List.takeWhile_append_dropWhile (p := isBlank) (l := s.indented format)
    have hlength := congrArg List.length (heq.trans hsplit.symm)
    simp only [List.length_append, String.length_toList] at hlength
    exact absurd hlength (by simp)
  · exact iff_of_true rfl hzero

/-- What is written around the values stays on a line, and the indentation is white space. -/
structure StatementFormat.OneLine (format : StatementFormat) : Prop where
  accumulator : IsLine format.accumulator.toList
  factor : IsLine format.factor.toList
  scale : IsLine format.scale.toList
  indent : IsLine format.indent.toList
  blank : ∀ c ∈ format.indent.toList, isBlank c = true

/-- A statement whose value is free of line feeds and signs of assignment, and that does not
start as a comment. -/
structure Statement.Plain (format : StatementFormat) (s : Statement) : Prop where
  value : IsLine s.value.toList
  unassigned : '=' ∉ s.value.toList
  code : ¬['/', '/'] <+: (format.accumulator ++ s.slot).toList.dropWhile isBlank

/-- **A line is commented out exactly if its statement adds zero.** -/
theorem Statement.commentLine_indented (hformat : format.OneLine) (h : s.Plain format) :
    commentLine format.zeroTail.toList (s.indented format) = s.written format := by
  obtain ⟨name, hslot⟩ := s.toList_slot
  have htarget : (format.accumulator ++ s.slot).toList.dropWhile isBlank =
      format.accumulator.toList.dropWhile isBlank ++ 'd' :: 'f' :: name := by
    rw [String.toList_append, hslot, dropWhile_append_cons (by decide)]
  have hbody : (s.indented format).dropWhile isBlank =
      (format.accumulator ++ s.slot).toList.dropWhile isBlank ++ ([' ', '+'] ++
        (format.opening ++ s.value.toList) ++ format.closing) := by
    rw [htarget, indented, List.dropWhile_append_of_pos hformat.blank, toList_text_eq,
      String.toList_append, hslot]
    simp only [List.append_assoc, List.cons_append]
    rw [dropWhile_append_cons (by decide)]
  have hcode : ¬IsComment (s.indented format) := by
    rw [IsComment, hbody]
    intro hprefix
    refine h.code (List.prefix_of_prefix_length_le hprefix (List.prefix_append _ _) ?_)
    simp only [htarget, List.length_append, List.length_cons, List.length_nil]
    omega
  have hzero : format.zeroTail.toList <:+ s.indented format ↔ s.value = "0" := by
    rw [indented, toList_text_eq, ← List.append_assoc, suffix_text_iff h.unassigned]
  rw [commentLine_eq format.isBlank_head_zeroTail]
  exact if_congr ((and_iff_left hcode).trans hzero) rfl rfl

theorem Statement.isLine_indented (hformat : format.OneLine) (h : s.Plain format) :
    IsLine (s.indented format) := by
  have hslot : '\n' ∉ s.slot.toList := s.notMem_slot (by decide)
  have hindent : '\n' ∉ format.indent.toList := hformat.indent
  have haccumulator : '\n' ∉ format.accumulator.toList := hformat.accumulator
  have hfactor : '\n' ∉ format.factor.toList := hformat.factor
  have hvalue : '\n' ∉ s.value.toList := h.value
  have hscale : '\n' ∉ format.scale.toList := hformat.scale
  simp [IsLine, indented, text, hslot, hindent, haccumulator, hfactor, hvalue, hscale]

/-! ### Blocks -/

namespace StatementFormat

/-- The text of the statements, before those that add zero are commented out. -/
theorem toList_linesAfter_none :
    (Statement.linesAfter format none statements).toList =
      unlines (format.blockLines (·.indented format) statements) := by
  have hafter : ∀ s rest, (format.indent ++ s.text format ++ "\n" ++
      Statement.linesAfter format (some s.order) rest).toList =
        unlines (format.blockLines (·.indented format) (s :: rest)) := by
    intro s rest
    induction rest generalizing s with
    | nil => simp [Statement.linesAfter, blockLines, Statement.indented]
    | cons t rest ih =>
      have hgap : (if format.separateOrders && (some s.order).any (· != t.order) then "\n"
          else "").toList =
          unlines (if format.separateOrders ∧ s.order ≠ t.order then [[]] else []) := by
        simp only [Option.any_some, Bool.and_eq_true, bne_iff_ne]
        split <;> rfl
      rw [blockLines, unlines_cons, unlines_append, ← ih, ← hgap, Statement.linesAfter]
      simp [Statement.indented]
  cases statements with
  | nil => rfl
  | cons s rest =>
    rw [← hafter, Statement.linesAfter]
    simp

/-- A function on lines acts on the lines of the statements. -/
theorem map_blockLines {f : List Char → List Char} (hf : f [] = [])
    {line line' : Statement → List Char} (h : ∀ s ∈ statements, f (line s) = line' s) :
    (format.blockLines line statements).map f = format.blockLines line' statements := by
  induction statements using blockLines.induct with
  | case1 => rfl
  | case2 s => simp [blockLines, h]
  | case3 s t rest ih =>
    obtain ⟨hs, hrest⟩ := List.forall_mem_cons.mp h
    rw [blockLines, blockLines, List.map_cons, List.map_append, hs, ih hrest]
    split <;> simp [hf]

theorem forall_mem_blockLines {p : List Char → Prop} (hempty : p [])
    {line : Statement → List Char} (h : ∀ s ∈ statements, p (line s)) :
    ∀ l ∈ format.blockLines line statements, p l := by
  induction statements using blockLines.induct with
  | case1 => exact List.forall_mem_nil _
  | case2 s => exact List.forall_mem_singleton.mpr (h s List.mem_cons_self)
  | case3 s t rest ih =>
    obtain ⟨hs, hrest⟩ := List.forall_mem_cons.mp h
    refine List.forall_mem_cons.mpr ⟨hs, List.forall_mem_append.mpr ⟨?_, ih hrest⟩⟩
    split
    · exact List.forall_mem_singleton.mpr hempty
    · exact List.forall_mem_nil _

theorem commentLine_zeroTail_nil : commentLine format.zeroTail.toList [] = [] :=
  commentLine_nil format.zeroTail_ne_nil

theorem map_commentLine (hformat : format.OneLine) (h : ∀ s ∈ statements, s.Plain format) :
    (format.blockLines (·.indented format) statements).map (commentLine format.zeroTail.toList) =
      format.blockLines (·.written format) statements :=
  map_blockLines commentLine_zeroTail_nil fun s hs => s.commentLine_indented hformat (h s hs)

/-- The lines that are written are lines. -/
theorem isLine_of_mem_blockLines (hformat : format.OneLine) (h : ∀ s ∈ statements, s.Plain format) :
    ∀ l ∈ format.blockLines (·.written format) statements, IsLine l := by
  refine forall_mem_blockLines List.not_mem_nil fun s hs => ?_
  rw [← s.commentLine_indented hformat (h s hs)]
  exact isLine_commentLine (s.isLine_indented hformat (h s hs))

/-- The text of some statements is that of their lines. -/
theorem toList_layout (hformat : format.OneLine) (h : ∀ s ∈ statements, s.Plain format) :
    (format.layout statements).toList =
      unlines (format.blockLines (·.written format) statements) := by
  have hlines : ∀ l ∈ format.blockLines (·.indented format) statements, IsLine l :=
    forall_mem_blockLines List.not_mem_nil fun s hs => s.isLine_indented hformat (h s hs)
  rw [layout, commentLines, mapLines_unlines commentLine_zeroTail_nil toList_linesAfter_none hlines,
    map_commentLine hformat h]

end StatementFormat

end Statements

end DensityKernel.C
