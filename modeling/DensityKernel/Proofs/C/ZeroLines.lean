import DensityKernel.C.ZeroLines
import DensityKernel.Proofs.Text.Lines
import Mathlib.Data.List.Forall2
import Mathlib.Data.List.Infix

/-!
Commenting out lines of arbitrary text. Each line is looked at by itself: one that ends
with the tail and is no comment becomes a comment after its leading blanks, and all
others stay (`commentLine_eq`). As a comment stays a comment, a second run changes
nothing, and as a line feed separates lines, a text and what follows it on later lines
do not see each other (`commentLines_append`).
-/

namespace DensityKernel.C

open Text

variable {tail line : List Char}

/-! ### Comments -/

/-- The first characters of a line that are no blanks are two slashes. -/
def IsComment (line : List Char) : Prop :=
  ['/', '/'] <+: line.dropWhile isBlank

instance : DecidablePred IsComment :=
  fun line => inferInstanceAs (Decidable (['/', '/'] <+: line.dropWhile isBlank))

/-- A line with a comment mark after its leading blanks. -/
def marked (line : List Char) : List Char :=
  line.takeWhile isBlank ++ ['/', '/', ' '] ++ line.dropWhile isBlank

theorem isComment_marked (line : List Char) : IsComment (marked line) := by
  have hindent : ∀ c ∈ line.takeWhile isBlank, isBlank c = true :=
    List.all_eq_true.mp List.all_takeWhile
  have hslash : isBlank '/' = false := by decide
  rw [IsComment, marked, List.append_assoc, List.dropWhile_append_of_pos hindent,
    List.cons_append, List.dropWhile_cons_of_neg (by simp [hslash])]
  exact List.prefix_append ['/', '/'] _

theorem isLine_marked (h : IsLine line) : IsLine (marked line) := by
  have hsplit : line.takeWhile isBlank ++ line.dropWhile isBlank = line :=
    List.takeWhile_append_dropWhile
  rw [← hsplit, IsLine, List.mem_append, not_or] at h
  simp [IsLine, marked, h.1, h.2]

/-! ### One line -/

/-- A tail that does not begin with a blank is the end of a line exactly if it is the end of what
follows the leading blanks. -/
theorem suffix_dropWhile_iff (htail : ∀ c ∈ tail.head?, isBlank c = false) :
    tail <:+ line.dropWhile isBlank ↔ tail <:+ line := by
  refine ⟨fun h => h.trans (List.dropWhile_suffix _), fun h => ?_⟩
  rcases List.suffix_or_suffix_of_suffix h (List.dropWhile_suffix isBlank) with hshort | hlong
  · exact hshort
  -- a longer tail would begin inside of the leading blanks
  obtain ⟨front, rfl⟩ := hlong
  cases front with
  | nil => exact List.suffix_refl _
  | cons c front =>
    have hindent : c :: front <:+ line.takeWhile isBlank := by
      rw [← List.suffix_append_self_iff, List.takeWhile_append_dropWhile]
      exact h
    have hblank : isBlank c = true :=
      List.all_eq_true.mp List.all_takeWhile c (hindent.subset List.mem_cons_self)
    exact absurd hblank (Bool.eq_false_iff.mp (htail c rfl))

/-- **A line becomes a comment** if it ends with the tail and is none yet. -/
theorem commentLine_eq (htail : ∀ c ∈ tail.head?, isBlank c = false) (line : List Char) :
    commentLine tail line = if tail <:+ line ∧ ¬IsComment line then marked line else line := by
  have hiff : (tail.isSuffixOf (line.dropWhile isBlank) &&
      !(['/', '/'].isPrefixOf (line.dropWhile isBlank))) = true ↔
        tail <:+ line ∧ ¬IsComment line := by
    rw [Bool.and_eq_true, List.isSuffixOf_iff_suffix, suffix_dropWhile_iff htail, Bool.not_eq_true',
      Bool.eq_false_iff, ne_eq, List.isPrefixOf_iff_prefix, IsComment]
  rw [commentLine, splitIndent]
  exact if_congr hiff rfl rfl

theorem commentLine_of_isComment (h : IsComment line) : commentLine tail line = line := by
  have hmark : ['/', '/'].isPrefixOf (line.dropWhile isBlank) = true :=
    List.isPrefixOf_iff_prefix.mpr h
  simp [commentLine, splitIndent, hmark]

theorem commentLine_cases (tail line : List Char) :
    commentLine tail line = marked line ∨ commentLine tail line = line := by
  unfold commentLine splitIndent
  dsimp only
  split
  · exact .inl rfl
  · exact .inr rfl

theorem isLine_commentLine (h : IsLine line) : IsLine (commentLine tail line) := by
  rcases commentLine_cases tail line with heq | heq
  · rw [heq]
    exact isLine_marked h
  · rw [heq]
    exact h

/-- A second run over a line changes nothing. -/
theorem commentLine_commentLine (tail line : List Char) :
    commentLine tail (commentLine tail line) = commentLine tail line := by
  rcases commentLine_cases tail line with heq | heq
  · rw [heq]
    exact commentLine_of_isComment (isComment_marked line)
  · rw [heq, heq]

/-- Only comments end with the tail. -/
theorem isComment_of_suffix_commentLine (htail : ∀ c ∈ tail.head?, isBlank c = false)
    (h : tail <:+ commentLine tail line) : IsComment (commentLine tail line) := by
  rw [commentLine_eq htail] at h ⊢
  split_ifs at h ⊢ with hzero
  · exact isComment_marked line
  · exact not_not.mp fun hcomment => hzero ⟨h, hcomment⟩

theorem commentLine_nil (htail : tail ≠ []) : commentLine tail [] = [] := by
  simp [commentLine, splitIndent, htail]

/-! ### Texts -/

theorem splitLines_commentLines (tail code : String) :
    splitLines (commentLines tail code).toList =
      (splitLines code.toList).map (commentLine tail.toList) :=
  splitLines_mapLines (fun _ => isLine_commentLine) code

theorem commentLines_commentLines (tail code : String) :
    commentLines tail (commentLines tail code) = commentLines tail code :=
  mapLines_idempotent (fun _ => isLine_commentLine) (commentLine_commentLine _) code

/-- Two texts with a line feed between them are treated by themselves. -/
theorem commentLines_newline (tail code rest : String) :
    commentLines tail (code ++ "\n" ++ rest) =
      commentLines tail code ++ "\n" ++ commentLines tail rest :=
  mapLines_append _ code rest

theorem commentLines_empty {tail : String} (htail : tail.toList ≠ []) :
    commentLines tail "" = "" := by
  simp [commentLines, mapLines, splitLines, joinLines, commentLine_nil htail]

/-- **Whole lines do not see what follows.** -/
theorem commentLines_append {tail : String} (htail : tail.toList ≠ []) (code rest : String) :
    commentLines tail (code ++ "\n" ++ rest) =
      commentLines tail (code ++ "\n") ++ commentLines tail rest := by
  have hended := commentLines_newline tail code ""
  rw [commentLines_empty htail, String.append_empty, String.append_empty] at hended
  rw [hended]
  exact commentLines_newline tail code rest

/-- **Commenting out the lines that add zero is done line by line**, for every text. There are as
many lines as before, and each is as it was unless it ends as a statement that adds zero and is no
comment; then a comment mark follows its leading blanks. A second run changes nothing, and two
texts with a line feed between them are treated by themselves. No line of the result ends as a
statement that adds zero unless it is a comment. -/
theorem commentZeroLines_linewise (code : String) :
    let zeroTail := "= (0)*factor;".toList
    List.Forall₂ (fun line written =>
        written = if zeroTail <:+ line ∧ ¬IsComment line then
          line.takeWhile isBlank ++ "// ".toList ++ line.dropWhile isBlank else line)
        (splitLines code.toList) (splitLines (commentZeroLines code).toList) ∧
      commentZeroLines (commentZeroLines code) = commentZeroLines code ∧
      (∀ rest, commentZeroLines (code ++ "\n" ++ rest) =
        commentZeroLines code ++ "\n" ++ commentZeroLines rest) ∧
      ∀ line ∈ splitLines (commentZeroLines code).toList, ¬IsComment line → ¬zeroTail <:+ line := by
  intro zeroTail
  have htail : ∀ c ∈ zeroTail.head?, isBlank c = false := by
    intro c hc
    obtain rfl : '=' = c := Option.some.inj hc
    decide
  have hlines : splitLines (commentZeroLines code).toList =
      (splitLines code.toList).map (commentLine zeroTail) := splitLines_commentLines _ _
  refine ⟨?_, commentLines_commentLines _ code, commentLines_newline _ code, ?_⟩
  · rw [hlines, List.forall₂_map_right_iff]
    exact List.forall₂_same.mpr fun line _ => commentLine_eq htail line
  · rw [hlines]
    refine List.forall_mem_map.mpr fun line _ hcode hsuffix => ?_
    exact hcode (isComment_of_suffix_commentLine htail hsuffix)

end DensityKernel.C
