/-!
Reading a text back. What is written as a run of characters of one kind ends where the first
character of another kind stands, so a text falls apart into its lines, and a line into its numbers
and the words between them, in one way only. Nothing needs to be escaped for that as long as the
words have no digits.
-/
namespace PieceIndex

/-- Where a run of characters of one kind ends is seen from the text alone. -/
theorem run_unique {α : Type} {p : α → Bool} {xs ys s t : List α} (inX : ∀ x ∈ xs, p x = true)
    (inY : ∀ y ∈ ys, p y = true) (endS : s.takeWhile p = []) (endT : t.takeWhile p = [])
    (same : xs ++ s = ys ++ t) : xs = ys ∧ s = t := by
  have runs := congrArg (List.takeWhile p) same
  rw [List.takeWhile_append_of_pos inX, List.takeWhile_append_of_pos inY, endS, endT,
    List.append_nil, List.append_nil] at runs
  subst runs
  exact ⟨rfl, List.append_cancel_left same⟩

theorem takeWhile_of_none {α : Type} {p : α → Bool} {xs : List α}
    (outside : ∀ x ∈ xs, p x = false) : xs.takeWhile p = [] := by
  cases xs with
  | nil => rfl
  | cons x xs => exact List.takeWhile_cons_of_neg (by simp [outside x List.mem_cons_self])

namespace Spelling

theorem isDigit_of_mem {n : Nat} {c : Char} (inside : c ∈ (toString n).toList) :
    c.isDigit = true := by
  rw [Nat.toString_eq_repr, Nat.toList_repr] at inside
  exact Nat.isDigit_of_mem_toDigits (by decide) (by decide) inside

theorem exists_digit (n : Nat) :
    ∃ digit digits, (toString n).toList = digit :: digits ∧ digit.isDigit = true := by
  have nonempty : (toString n).toList ≠ [] := by
    rw [Nat.toString_eq_repr, Nat.toList_repr]
    exact Nat.toDigits_ne_nil
  obtain ⟨digit, digits, chars⟩ := List.exists_cons_of_ne_nil nonempty
  exact ⟨digit, digits, chars, isDigit_of_mem (by rw [chars]; exact List.mem_cons_self)⟩

theorem takeWhile_digits (n : Nat) (rest : List Char) :
    ((toString n).toList ++ rest).takeWhile (!·.isDigit) = [] := by
  obtain ⟨digit, digits, chars, isDigit⟩ := exists_digit n
  rw [chars, List.cons_append, List.takeWhile_cons_of_neg (by simp [isDigit])]

/-- A number in a text is not over before a character that is no digit. -/
theorem number_unique {m n : Nat} {s t : List Char} (endS : s.takeWhile Char.isDigit = [])
    (endT : t.takeWhile Char.isDigit = [])
    (same : (toString m).toList ++ s = (toString n).toList ++ t) : m = n ∧ s = t := by
  obtain ⟨digits, rest⟩ :=
    run_unique (fun _ => isDigit_of_mem) (fun _ => isDigit_of_mem) endS endT same
  rw [Nat.toString_eq_repr, Nat.toString_eq_repr, Nat.toList_repr, Nat.toList_repr] at digits
  refine ⟨?_, rest⟩
  rw [← Nat.ofDigitChars_ten_toDigits (n := m), digits, Nat.ofDigitChars_ten_toDigits]

/-- Text without digits and line breaks. -/
def Plain (text : String) : Prop := ∀ c ∈ text.toList, c.isDigit = false ∧ c ≠ '\n'

/-- Numbers, each after the word before it, and the word at the end. -/
def spell : List (String × Nat) → String → String
  | [], last => last
  | (word, number) :: rest, last => word ++ (toString number ++ spell rest last)

/-- There are words between any two numbers, and the numbers can be told from them. -/
structure Readable (tokens : List (String × Nat)) (last : String) : Prop where
  words : ∀ token ∈ tokens, token.1 ≠ "" ∧ Plain token.1
  last : Plain last

variable {token : String × Nat} {xs ys tokens : List (String × Nat)} {a b last : String}

theorem toList_spell_cons :
    (spell (token :: tokens) last).toList =
      token.1.toList ++ ((toString token.2).toList ++ (spell tokens last).toList) := by
  rw [spell, String.toList_append, String.toList_append]

theorem Readable.tail (readable : Readable (token :: tokens) last) : Readable tokens last :=
  ⟨fun other inside => readable.words other (List.mem_cons_of_mem _ inside), readable.last⟩

theorem Readable.newline_notMem (readable : Readable tokens last) :
    '\n' ∉ (spell tokens last).toList := by
  induction tokens with
  | nil => exact fun inside => (readable.last _ inside).2 rfl
  | cons token tokens ih =>
    rw [toList_spell_cons, List.mem_append, List.mem_append]
    rintro (inside | inside | inside)
    · exact ((readable.words token List.mem_cons_self).2 _ inside).2 rfl
    · exact absurd (isDigit_of_mem inside) (by decide)
    · exact ih readable.tail inside

/-- After a number comes a word or nothing. -/
theorem Readable.takeWhile_isDigit (readable : Readable tokens last) :
    (spell tokens last).toList.takeWhile Char.isDigit = [] := by
  cases tokens with
  | nil => exact takeWhile_of_none fun c inside => (readable.last c inside).1
  | cons token tokens =>
    obtain ⟨nonempty, plain⟩ := readable.words token List.mem_cons_self
    rw [toList_spell_cons]
    cases chars : token.1.toList with
    | nil => exact absurd (String.toList_inj.mp (chars.trans rfl)) nonempty
    | cons c rest =>
      have outside := (plain c (by rw [chars]; exact List.mem_cons_self)).1
      exact List.takeWhile_cons_of_neg (by simp [outside])

/-- A word goes on to the first digit. -/
theorem Plain.unique {word word' : String} {s t : List Char} (plain : Plain word)
    (plain' : Plain word') (endS : s.takeWhile (!·.isDigit) = [])
    (endT : t.takeWhile (!·.isDigit) = []) (same : word.toList ++ s = word'.toList ++ t) :
    word = word' ∧ s = t := by
  obtain ⟨words, rest⟩ := run_unique (fun c inside => by simp [(plain c inside).1])
    (fun c inside => by simp [(plain' c inside).1]) endS endT same
  exact ⟨String.toList_inj.mp words, rest⟩

/-- A word without digits is no text with a number in it. -/
theorem Plain.ne_spell {word : String} (plain : Plain word) :
    (spell (token :: tokens) last).toList ≠ word.toList := by
  intro same
  obtain ⟨digit, digits, chars, isDigit⟩ := exists_digit token.2
  have inside : digit ∈ word.toList := by
    rw [← same, toList_spell_cons, chars]
    simp
  rw [(plain digit inside).1] at isDigit
  cases isDigit

/-- A text tells its numbers and the words between them. -/
theorem spell_unique (readX : Readable xs a) (readY : Readable ys b)
    (same : (spell xs a).toList = (spell ys b).toList) : xs = ys ∧ a = b := by
  induction xs generalizing ys with
  | nil =>
    cases ys with
    | nil => exact ⟨rfl, String.toList_inj.mp same⟩
    | cons y ys => exact absurd same.symm readX.last.ne_spell
  | cons x xs ih =>
    cases ys with
    | nil => exact absurd same readY.last.ne_spell
    | cons y ys =>
      rw [toList_spell_cons, toList_spell_cons] at same
      obtain ⟨words, same⟩ := (readX.words x List.mem_cons_self).2.unique
        (readY.words y List.mem_cons_self).2 (takeWhile_digits x.2 _) (takeWhile_digits y.2 _) same
      obtain ⟨numbers, same⟩ := number_unique readX.tail.takeWhile_isDigit
        readY.tail.takeWhile_isDigit same
      obtain ⟨rfl, rfl⟩ := ih readX.tail readY.tail same
      exact ⟨congrArg (· :: xs) (Prod.ext words numbers), rfl⟩

/-- Lines are told by the breaks at their ends. -/
theorem lines_unique {lines lines' : List String}
    (unbroken : ∀ line ∈ lines, '\n' ∉ line.toList)
    (unbroken' : ∀ line ∈ lines', '\n' ∉ line.toList)
    (same : lines.flatMap (fun line => line.toList ++ ['\n']) =
      lines'.flatMap (fun line => line.toList ++ ['\n'])) : lines = lines' := by
  induction lines generalizing lines' with
  | nil =>
    cases lines' with
    | nil => rfl
    | cons line' lines' => simp at same
  | cons line lines ih =>
    cases lines' with
    | nil => simp at same
    | cons line' lines' =>
      rw [List.forall_mem_cons] at unbroken unbroken'
      have inside {text : String} (free : '\n' ∉ text.toList) :
          ∀ c ∈ text.toList, (c != '\n') = true := by
        intro c member
        simp only [bne_iff_ne]
        rintro rfl
        exact free member
      rw [List.flatMap_cons, List.flatMap_cons, List.append_assoc, List.append_assoc] at same
      obtain ⟨here, rest⟩ := run_unique (inside unbroken.1) (inside unbroken'.1) rfl rfl same
      rw [String.toList_inj.mp here, ih unbroken.2 unbroken'.2 (List.append_cancel_left rest)]

end Spelling
end PieceIndex
