import DensityKernel.Text.Lines

/-!
Lines of texts. Cutting and joining undo each other, and both go through a line feed
between two texts (`splitLines_append`, `joinLines_append`). So a function on lines acts
on each line and on nothing else (`splitLines_mapLines`), and on two texts around a line
feed it acts on each of them (`mapLines_append`). A text of whole lines is cut into just
these lines, with an empty one after the last line feed.
-/

namespace DensityKernel.Text

/-- Lines with a line feed after each. -/
def unlines (lines : List (List Char)) : List Char :=
  lines.flatMap (· ++ ['\n'])

variable {line rest : List Char} {lines : List (List Char)}

@[simp] theorem unlines_nil : unlines [] = [] :=
  rfl

@[simp] theorem unlines_cons : unlines (line :: lines) = line ++ '\n' :: unlines lines := by
  simp [unlines]

@[simp] theorem unlines_append {lines' : List (List Char)} :
    unlines (lines ++ lines') = unlines lines ++ unlines lines' :=
  List.flatMap_append

/-- A text is a line if it holds no line feed. -/
def IsLine (line : List Char) : Prop :=
  '\n' ∉ line

instance : DecidablePred IsLine :=
  fun line => inferInstanceAs (Decidable ('\n' ∉ line))

/-! ### Cutting and joining -/

/-- **A line feed separates lines**, whatever stands around it. -/
theorem splitLines_append (cs ds : List Char) :
    splitLines (cs ++ '\n' :: ds) = splitLines cs ++ splitLines ds := by
  induction cs with
  | nil => simp [splitLines]
  | cons c cs ih =>
    obtain ⟨line, lines, hcs⟩ := List.exists_cons_of_ne_nil (splitLines_ne_nil cs)
    rw [List.cons_append, splitLines, splitLines, ih, hcs]
    split <;> rfl

theorem splitLines_of_isLine (h : IsLine line) : splitLines line = [line] := by
  induction line with
  | nil => rfl
  | cons c line ih =>
    obtain ⟨hc, hline⟩ := not_or.mp (fun hmem => h (List.mem_cons.mpr hmem))
    rw [splitLines, if_neg (Ne.symm hc), ih hline]

theorem splitLines_line (h : IsLine line) :
    splitLines (line ++ '\n' :: rest) = line :: splitLines rest := by
  rw [splitLines_append, splitLines_of_isLine h, List.singleton_append]

/-- What a text is cut into are lines. -/
theorem isLine_of_mem_splitLines {cs : List Char} : ∀ line ∈ splitLines cs, IsLine line := by
  induction cs with
  | nil => exact List.forall_mem_singleton.mpr List.not_mem_nil
  | cons c cs ih =>
    obtain ⟨line, lines, hcs⟩ := List.exists_cons_of_ne_nil (splitLines_ne_nil cs)
    rw [hcs] at ih
    by_cases hc : c = '\n'
    · rw [splitLines, if_pos hc, hcs]
      exact List.forall_mem_cons.mpr ⟨List.not_mem_nil, ih⟩
    · rw [splitLines, if_neg hc, hcs]
      obtain ⟨hline, hlines⟩ := List.forall_mem_cons.mp ih
      refine List.forall_mem_cons.mpr ⟨fun hmem => ?_, hlines⟩
      rcases List.mem_cons.mp hmem with heq | hmem
      · exact hc heq.symm
      · exact hline hmem

theorem joinLines_cons (hne : lines ≠ []) :
    joinLines (line :: lines) = line ++ '\n' :: joinLines lines := by
  cases lines with
  | nil => exact absurd rfl hne
  | cons line' lines => rfl

theorem joinLines_append {lines' : List (List Char)} (hne : lines ≠ []) (hne' : lines' ≠ []) :
    joinLines (lines ++ lines') = joinLines lines ++ '\n' :: joinLines lines' := by
  induction lines with
  | nil => exact absurd rfl hne
  | cons line lines ih =>
    rw [List.cons_append, joinLines_cons (List.append_ne_nil_of_right_ne_nil lines hne')]
    by_cases hlines : lines = []
    · rw [hlines]
      rfl
    · rw [ih hlines, joinLines_cons hlines, List.append_assoc, List.cons_append]

/-- **Lines that are joined are cut again** where they were joined. -/
theorem splitLines_joinLines (hne : lines ≠ []) (h : ∀ line ∈ lines, IsLine line) :
    splitLines (joinLines lines) = lines := by
  induction lines with
  | nil => exact absurd rfl hne
  | cons line lines ih =>
    obtain ⟨hline, hlines⟩ := List.forall_mem_cons.mp h
    by_cases hnil : lines = []
    · rw [hnil]
      exact splitLines_of_isLine hline
    · rw [joinLines_cons hnil, splitLines_line hline, ih hnil hlines]

/-! ### Whole lines -/

/-- **Cutting whole lines gives the lines.** -/
theorem splitLines_unlines (h : ∀ line ∈ lines, IsLine line) :
    splitLines (unlines lines ++ rest) = lines ++ splitLines rest := by
  induction lines with
  | nil => rfl
  | cons line lines ih =>
    obtain ⟨hline, hlines⟩ := List.forall_mem_cons.mp h
    rw [unlines_cons, List.append_assoc, List.cons_append, splitLines_line hline, ih hlines,
      List.cons_append]

theorem splitLines_of_unlines (h : ∀ line ∈ lines, IsLine line) :
    splitLines (unlines lines) = lines ++ [[]] := by
  rw [← List.append_nil (unlines lines), splitLines_unlines h, splitLines]

theorem joinLines_unlines (lines : List (List Char)) :
    joinLines (lines ++ [[]]) = unlines lines := by
  induction lines with
  | nil => rfl
  | cons line lines ih =>
    rw [List.cons_append, unlines_cons, ← ih]
    cases lines <;> rfl

/-! ### Functions on lines -/

section Functions

variable {f : List Char → List Char}

/-- **A function on lines acts on each line**, if it makes lines of lines. -/
theorem splitLines_mapLines (hf : ∀ line, IsLine line → IsLine (f line)) (s : String) :
    splitLines (mapLines f s).toList = (splitLines s.toList).map f := by
  rw [mapLines, String.toList_ofList]
  refine splitLines_joinLines (mt List.map_eq_nil_iff.mp (splitLines_ne_nil _)) ?_
  exact List.forall_mem_map.mpr fun line hline => hf line (isLine_of_mem_splitLines line hline)

/-- **A function on lines acts on two texts by themselves** if a line feed stands between them. -/
theorem mapLines_append (f : List Char → List Char) (s t : String) :
    mapLines f (s ++ "\n" ++ t) = mapLines f s ++ "\n" ++ mapLines f t := by
  have hlines : ∀ cs : List Char, (splitLines cs).map f ≠ [] :=
    fun cs => mt List.map_eq_nil_iff.mp (splitLines_ne_nil cs)
  have htext : (s ++ "\n" ++ t).toList = s.toList ++ '\n' :: t.toList := by simp
  refine String.toList_injective ?_
  rw [mapLines, String.toList_ofList, htext, splitLines_append, List.map_append,
    joinLines_append (hlines _) (hlines _)]
  simp [mapLines]

/-- What is done to each line once is done to the text once. -/
theorem mapLines_idempotent (hline : ∀ line, IsLine line → IsLine (f line))
    (hf : ∀ line, f (f line) = f line) (s : String) : mapLines f (mapLines f s) = mapLines f s := by
  have hff : f ∘ f = f := funext hf
  rw [mapLines, splitLines_mapLines hline, List.map_map, hff]
  rfl

/-- A function on lines makes whole lines of whole lines. -/
theorem mapLines_unlines (hf : f [] = []) {s : String}
    (hs : s.toList = unlines lines) (h : ∀ line ∈ lines, IsLine line) :
    (mapLines f s).toList = unlines (lines.map f) := by
  rw [mapLines, String.toList_ofList, hs, splitLines_of_unlines h, List.map_append,
    List.map_singleton, hf, joinLines_unlines]

end Functions

end DensityKernel.Text
