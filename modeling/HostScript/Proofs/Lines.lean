import HostScript.Proofs.Fields
/-!
# Lines of a text

A text can be taken apart into its lines, each with what ends it, and put together again. Lines that are deleted take
their ends with them, so that those that stay are the lines of what is left. Lines that are added at the end stand
behind those that were there, whose last one gets a line feed if it had none.
-/

set_option autoImplicit false

namespace HostScript.Text

variable {line : List Char} {fs pieces more : List (List Char)}

/-! ## Lines with their ends -/

/-- Fields between line feeds, each with the line feed that follows it. -/
def withEnds : List (List Char) → List (List Char)
  | [] => []
  | [last] => if last.isEmpty then [] else [last]
  | line :: more => (line ++ ['\n']) :: withEnds more

/-- The lines of a text with their ends. -/
def piecesOf (cs : List Char) : List (List Char) := withEnds (fieldsOf '\n' cs)

/-- The line of a piece. -/
def lineOf (piece : List Char) : List Char :=
  if piece.getLast? = some '\n' then dropCarriageReturn piece.dropLast else piece

theorem lineOf_ended (line : List Char) : lineOf (line ++ ['\n']) = dropCarriageReturn line := by
  rw [lineOf, List.getLast?_concat, if_pos rfl, List.dropLast_concat]

theorem lineOf_last (h : '\n' ∉ line) : lineOf line = line :=
  if_neg fun hlast => h (List.mem_of_getLast? hlast)

theorem fieldsOf_ne_nil (sep : Char) (cs : List Char) : fieldsOf sep cs ≠ [] := by
  obtain ⟨more, hmore⟩ := fieldsOf_eq_cons sep cs
  rw [hmore]
  exact List.cons_ne_nil _ _

theorem withEnds_cons (line : List Char) (h : more ≠ []) :
    withEnds (line :: more) = (line ++ ['\n']) :: withEnds more := by
  cases more with
  | nil => exact absurd rfl h
  | cons next more => rfl

theorem linesOf_cons (line : List Char) (h : more ≠ []) :
    linesOf (line :: more) = dropCarriageReturn line :: linesOf more := by
  cases more with
  | nil => exact absurd rfl h
  | cons next more => rfl

theorem linesOf_eq (h : ∀ line ∈ fs, '\n' ∉ line) : linesOf fs = (withEnds fs).map lineOf := by
  fun_induction withEnds fs with
  | case1 => rfl
  | case2 last hempty => rw [linesOf, if_pos hempty, List.map_nil]
  | case3 last hempty =>
    rw [linesOf, if_neg hempty, List.map_singleton, lineOf_last (h last List.mem_cons_self)]
  | case4 line more hmore ih =>
    rw [linesOf_cons line (fun hnil => hmore hnil), List.map_cons, lineOf_ended,
      ih fun field hfield => h field (List.mem_cons_of_mem _ hfield)]

theorem flatten_withEnds_cons (c : Char) (line : List Char) (more : List (List Char)) :
    (withEnds ((c :: line) :: more)).flatten = c :: (withEnds (line :: more)).flatten := by
  cases more with
  | nil => cases line <;> rfl
  | cons next more => rfl

/-- A text consists of its lines with their ends. -/
theorem flatten_piecesOf (cs : List Char) : (piecesOf cs).flatten = cs := by
  induction cs with
  | nil => rfl
  | cons c cs ih =>
    by_cases hc : c = '\n'
    · rw [piecesOf, fieldsOf, if_pos (beq_iff_eq.mpr hc), withEnds_cons [] (fieldsOf_ne_nil _ _), List.flatten_cons,
        ← piecesOf, ih, hc]
      rfl
    · obtain ⟨more, hmore⟩ := fieldsOf_eq_cons '\n' cs
      rw [piecesOf, hmore] at ih
      rw [piecesOf, fieldsOf, if_neg (mt beq_iff_eq.mp hc), hmore]
      exact (flatten_withEnds_cons c _ more).trans (congrArg (c :: ·) ih)

/-- What lines with their ends are: each of them but the last has a line feed at its end, and nowhere else. -/
inductive Pieces : List (List Char) → Prop where
  | nil : Pieces []
  | last {line : List Char} (h : '\n' ∉ line) (hne : line ≠ []) : Pieces [line]
  | cons {line : List Char} {more : List (List Char)} (h : '\n' ∉ line) (hmore : Pieces more) :
    Pieces ((line ++ ['\n']) :: more)

theorem pieces_withEnds (h : ∀ line ∈ fs, '\n' ∉ line) : Pieces (withEnds fs) := by
  fun_induction withEnds fs with
  | case1 => exact .nil
  | case2 last hempty => exact .nil
  | case3 last hempty => exact .last (h last List.mem_cons_self) (mt List.isEmpty_iff.mpr hempty)
  | case4 line more hmore ih =>
    exact .cons (h line List.mem_cons_self) (ih fun field hfield => h field (List.mem_cons_of_mem _ hfield))

theorem pieces_piecesOf (cs : List Char) : Pieces (piecesOf cs) := pieces_withEnds fun _ => not_mem_of_mem_fieldsOf

/-- Without some of them they still are lines with their ends. -/
theorem Pieces.sublist (h : Pieces more) (hsub : pieces.Sublist more) : Pieces pieces := by
  induction h generalizing pieces with
  | nil =>
    rw [List.sublist_nil.mp hsub]
    exact .nil
  | last h hne =>
    rcases List.sublist_cons_iff.mp hsub with hnil | ⟨rest, rfl, hnil⟩
    · rw [List.sublist_nil.mp hnil]
      exact .nil
    · rw [List.sublist_nil.mp hnil]
      exact .last h hne
  | cons h _ ih =>
    rcases List.sublist_cons_iff.mp hsub with hmore | ⟨rest, rfl, hrest⟩
    · exact ih hmore
    · exact .cons h (ih hrest)

/-- What is put together of lines with their ends has these. -/
theorem piecesOf_flatten (h : Pieces pieces) : piecesOf pieces.flatten = pieces := by
  induction h with
  | nil => rfl
  | @last line h hne =>
    rw [List.flatten_cons, List.flatten_nil, List.append_nil, piecesOf, fieldsOf_of_not_mem h, withEnds,
      if_neg (mt List.isEmpty_iff.mp hne)]
  | @cons line more h _ ih =>
    rw [List.flatten_cons, List.append_assoc, List.singleton_append, piecesOf, fieldsOf_append, fieldsOf_of_not_mem h,
      List.singleton_append, withEnds_cons line (fieldsOf_ne_nil _ _)]
    exact congrArg (_ :: ·) ih

theorem lines_eq (s : String) : lines s = (piecesOf s.toList).map fun piece => String.ofList (lineOf piece) := by
  rw [lines, linesOf_eq fun _ => not_mem_of_mem_fieldsOf, List.map_map]
  rfl

/-! ## Deleting lines -/

/-- The items, numbered from `n` on, without those whose numbers are listed. -/
def withoutNumbers {α : Type} (numbers : List Nat) : Nat → List α → List α
  | _, [] => []
  | n, x :: xs => if n ∈ numbers then withoutNumbers numbers (n + 1) xs else x :: withoutNumbers numbers (n + 1) xs

section Numbers

variable {α β : Type} (numbers : List Nat) (n : Nat)

theorem withoutNumbers_sublist (xs : List α) : (withoutNumbers numbers n xs).Sublist xs := by
  induction xs generalizing n with
  | nil => exact .slnil
  | cons x xs ih =>
    rw [withoutNumbers]
    split
    · exact (ih (n + 1)).cons x
    · exact (ih (n + 1)).cons_cons x

theorem map_withoutNumbers (f : α → β) (xs : List α) :
    (withoutNumbers numbers n xs).map f = withoutNumbers numbers n (xs.map f) := by
  induction xs generalizing n with
  | nil => rfl
  | cons x xs ih =>
    rw [withoutNumbers, List.map_cons, withoutNumbers, ← ih]
    split <;> rfl

/-- Numbers that have passed make no difference. -/
theorem withoutNumbers_passed {m : Nat} (h : m < n) (xs : List α) :
    withoutNumbers (m :: numbers) n xs = withoutNumbers numbers n xs := by
  induction xs generalizing n with
  | nil => rfl
  | cons x xs ih =>
    have hmem : n ∈ m :: numbers ↔ n ∈ numbers := by simp [Nat.ne_of_gt h]
    simp only [withoutNumbers, hmem, ih (n + 1) (Nat.lt_succ_of_lt h)]

end Numbers

/-- A text without the lines whose numbers are listed, counted from one. -/
def withoutLines (numbers : List Nat) (s : String) : String :=
  String.ofList (withoutNumbers numbers 1 (piecesOf s.toList)).flatten

/-- The lines that are left are those that are not deleted. -/
theorem lines_withoutLines (numbers : List Nat) (s : String) :
    lines (withoutLines numbers s) = withoutNumbers numbers 1 (lines s) := by
  have hpieces := (pieces_piecesOf s.toList).sublist (withoutNumbers_sublist numbers 1 _)
  rw [lines_eq, withoutLines, String.toList_ofList, piecesOf_flatten hpieces, map_withoutNumbers, ← lines_eq]

example : withoutLines [2, 3] "a\r\nb\n\nc" = "a\r\nc" := by decide

/-! ## Adding lines -/

/-- Whether more lines can follow right behind a text. -/
def endsLine (s : String) : Bool := s.toList.getLast?.all (· == '\n')

/-- A text with more lines behind it. -/
def appendLines (s more : String) : String := if endsLine s then s ++ more else s ++ "\n" ++ more

theorem linesOf_append (fs : List (List Char)) (h : more ≠ []) :
    linesOf (fs ++ more) = fs.map dropCarriageReturn ++ linesOf more := by
  induction fs with
  | nil => rfl
  | cons line fs ih =>
    rw [List.cons_append, linesOf_cons line (List.append_ne_nil_of_right_ne_nil fs h), ih]
    rfl

/-- The lines on both sides of a line feed. -/
theorem lines_feed (cs ds : List Char) :
    lines (String.ofList (cs ++ '\n' :: ds)) =
      ((fieldsOf '\n' cs).map dropCarriageReturn).map String.ofList ++ lines (String.ofList ds) := by
  rw [lines, String.toList_ofList, fieldsOf_append, linesOf_append _ (fieldsOf_ne_nil _ _), List.map_append, lines,
    String.toList_ofList]

/-- Blanks at the end of a line make no difference once it is trimmed. -/
theorem trim_concat {c : Char} (hc : isBlank c = true) (cs : List Char) :
    trim (String.ofList (cs ++ [c])) = trim (String.ofList cs) := by
  rw [trim, trim, String.toList_ofList, String.toList_ofList, List.dropWhile_append]
  split
  · rename_i hempty
    rw [List.isEmpty_iff.mp hempty, List.dropWhile_cons_of_pos hc, List.dropWhile_nil]
  · rw [dropEndWhile_eq, dropEndWhile_eq, List.rdropWhile_concat_pos _ _ _ hc]

theorem trim_dropCarriageReturn (line : List Char) :
    trim (String.ofList (dropCarriageReturn line)) = trim (String.ofList line) := by
  unfold dropCarriageReturn
  split
  · rename_i before hline
    have hback : line = before.reverse ++ ['\r'] := by rw [← List.reverse_reverse line, hline, List.reverse_cons]
    rw [hback, trim_concat (by decide)]
  · rfl

/-- If there is nothing behind the last line feed, or no line at all, more lines can follow. -/
theorem endsLine_withEnds (h : fs.getLast? = some []) : (withEnds fs).flatten.getLast?.all (· == '\n') = true := by
  fun_induction withEnds fs with
  | case1 => rfl
  | case2 last hempty => rfl
  | case3 last hempty => exact absurd (List.isEmpty_iff.mpr (Option.some.inj h)) hempty
  | case4 line more hmore ih =>
    obtain ⟨next, more, rfl⟩ := List.exists_cons_of_ne_nil hmore
    have hall := ih h
    rw [List.flatten_cons, List.getLast?_append]
    cases hlast : (withEnds (next :: more)).flatten.getLast? with
    | none => rw [Option.none_or, List.getLast?_concat]; rfl
    | some c => rwa [hlast] at hall

/-- Whether a line feed follows the last line or not makes no difference once the lines are trimmed. -/
theorem map_trim_linesOf (h : fs.getLast? ≠ some []) :
    (linesOf fs).map (trim ∘ String.ofList) = (fs.map dropCarriageReturn).map (trim ∘ String.ofList) := by
  fun_induction linesOf fs with
  | case1 => rfl
  | case2 last hempty => exact absurd (congrArg some (List.isEmpty_iff.mp hempty)) h
  | case3 last hempty => exact congrArg (fun trimmed => [trimmed]) (trim_dropCarriageReturn last).symm
  | case4 line more hmore ih =>
    obtain ⟨next, more, rfl⟩ := List.exists_cons_of_ne_nil hmore
    rw [List.map_cons, ih h]
    rfl

/-- Up to blanks around them, the lines of a text with more behind it are its own and then the others. -/
theorem trim_lines_appendLines (s more : String) :
    (lines (appendLines s more)).map trim = (lines s).map trim ++ (lines more).map trim := by
  by_cases hends : endsLine s = true
  · rw [appendLines, if_pos hends]
    rcases List.eq_nil_or_concat s.toList with hnil | ⟨before, c, hconcat⟩
    · rw [String.toList_eq_nil_iff.mp hnil, String.empty_append]
      rfl
    · have hc : c = '\n' := by simpa [endsLine, hconcat] using hends
      subst hc
      have hboth : s ++ more = String.ofList (before ++ '\n' :: more.toList) :=
        String.toList_inj.mp (by simp [hconcat])
      have hself : s = String.ofList (before ++ '\n' :: []) := String.toList_inj.mp (by simp [hconcat])
      rw [hboth, lines_feed, String.ofList_toList, hself, lines_feed, ← List.map_append]
      exact congrArg (fun ls => (ls ++ lines more).map trim) (List.append_nil _).symm
  · have hopen : (fieldsOf '\n' s.toList).getLast? ≠ some [] := by
      intro h
      have hall := endsLine_withEnds h
      rw [← piecesOf, flatten_piecesOf] at hall
      exact hends hall
    have hboth : s ++ "\n" ++ more = String.ofList (s.toList ++ '\n' :: more.toList) :=
      String.toList_inj.mp (by simp)
    rw [appendLines, if_neg hends, hboth, lines_feed, String.ofList_toList, List.map_append, List.map_map,
      ← map_trim_linesOf hopen, ← List.map_map]
    rfl

end HostScript.Text
