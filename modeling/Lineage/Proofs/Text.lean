import Lineage.Text.Blank
import Lineage.Text.Numeral

/-!
# Lineage.Proofs.Text

Texts that are put together: the lines of one text after another, the fields of
a line with blanks between them, and the number of a decimal numeral.

* `lines_append`, `length_lines` — the lines of a text that ends its last line.
* `fields_spaced` — the fields of a line.
* `signed64?_decimal` — the number of a numeral.
-/

namespace Lineage.Text

variable {c : Char} {a b cs line gap word : List Char} {fs : List (List Char)}

/-! ## lines -/

/-- The text is empty or ends its last line. -/
def Ended (cs : List Char) : Prop := ∀ c ∈ cs.getLast?, c = '\n'

theorem Ended.of_cons (h : Ended (c :: cs)) : Ended cs := by
  intro d hd
  refine h d ?_
  rw [List.getLast?_cons, Option.mem_some_iff, Option.mem_def.mp hd, Option.getD_some]

theorem Ended.ne_nil_of_cons (h : Ended (c :: cs)) (hc : c ≠ '\n') : cs ≠ [] := by
  rintro rfl
  exact hc (h c rfl)

theorem lines_cons (hc : c ≠ '\n') : lines (c :: cs) =
    match lines cs with
    | l :: ls => (c :: l) :: ls
    | [] => [[c]] :=
  lines.eq_3 c cs hc

theorem lines_ne_nil (h : cs ≠ []) : lines cs ≠ [] := by
  unfold lines
  split
  · exact absurd rfl h
  · exact List.cons_ne_nil _ _
  · split <;> exact List.cons_ne_nil _ _

/-- The lines of a text that ends its last line, and of another one after it. -/
theorem lines_append (ha : Ended a) (b : List Char) : lines (a ++ b) = lines a ++ lines b := by
  induction a with
  | nil => rfl
  | cons c cs ih =>
      have hrest := ih ha.of_cons
      by_cases hc : c = '\n'
      · subst hc
        rw [List.cons_append, lines, lines, hrest, List.cons_append]
      · obtain ⟨l, ls, hls⟩ := List.exists_cons_of_ne_nil (lines_ne_nil (ha.ne_nil_of_cons hc))
        rw [List.cons_append, lines_cons hc, lines_cons hc, hrest, hls]
        rfl

/-- Such a text has as many lines as line feeds. -/
theorem length_lines (ha : Ended a) : (lines a).length = a.count '\n' := by
  induction a with
  | nil => rfl
  | cons c cs ih =>
      have hrest := ih ha.of_cons
      by_cases hc : c = '\n'
      · subst hc
        rw [lines, List.length_cons, hrest, List.count_cons_self]
      · obtain ⟨l, ls, hls⟩ := List.exists_cons_of_ne_nil (lines_ne_nil (ha.ne_nil_of_cons hc))
        rw [lines_cons hc, List.count_cons_of_ne hc, ← hrest, hls]
        rfl

/-- A text without line feeds is one line, if it is any. -/
theorem lines_unended (hline : '\n' ∉ line) (h : line ≠ []) : lines line = [line] := by
  induction line with
  | nil => exact absurd rfl h
  | cons c cs ih =>
      obtain ⟨hc, hcs⟩ := not_or.mp (mt List.mem_cons.mpr hline)
      rw [lines_cons (Ne.symm hc)]
      cases cs with
      | nil => rfl
      | cons d ds => rw [ih hcs (List.cons_ne_nil d ds)]

theorem lines_ended (hline : '\n' ∉ line) (cs : List Char) :
    lines (line ++ '\n' :: cs) = line :: lines cs := by
  induction line with
  | nil => rw [List.nil_append, lines]
  | cons c line ih =>
      obtain ⟨hc, hline⟩ := not_or.mp (mt List.mem_cons.mpr hline)
      rw [List.cons_append, lines_cons (Ne.symm hc), ih hline]

/-! ## fields -/

/-- Blanks within a line. -/
def Gap (cs : List Char) : Prop := ∀ c ∈ cs, isBlank c = true ∧ c ≠ '\n'

/-- What a field can be: not empty, and without blanks. -/
def Word (cs : List Char) : Prop := cs ≠ [] ∧ ∀ c ∈ cs, isBlank c = false

-- there are finitely many characters, and the other instance goes through all of them
instance : Decidable (Gap cs) := List.decidableBAll _ cs

instance : Decidable (Word cs) := @instDecidableAnd _ _ inferInstance (List.decidableBAll _ cs)

/-- Some words in a line, each two with a gap between them. -/
inductive Spaced : List (List Char) → List Char → Prop where
  | last (word : List Char) : Spaced [word] word
  | cons (word : List Char) {gap cs : List Char} {words : List (List Char)} :
      Gap gap → gap ≠ [] → Spaced words cs → Spaced (word :: words) (word ++ (gap ++ cs))

theorem exists_spaced (word : List Char) (words : List (List Char)) :
    ∃ cs, Spaced (word :: words) cs := by
  induction words generalizing word with
  | nil => exact ⟨word, .last word⟩
  | cons next words ih =>
      obtain ⟨cs, hcs⟩ := ih next
      exact ⟨word ++ ([' '] ++ cs), .cons word (by decide) (by decide) hcs⟩

theorem Gap.append (hgap : Gap gap) {more : List Char} (hmore : Gap more) : Gap (gap ++ more) :=
  List.forall_mem_append.mpr ⟨hgap, hmore⟩

theorem Gap.not_mem_lineFeed (hgap : Gap gap) : '\n' ∉ gap := fun h => (hgap '\n' h).2 rfl

theorem Word.not_mem_lineFeed (hword : Word word) : '\n' ∉ word := fun h =>
  absurd (hword.2 '\n' h) (by decide)

theorem Spaced.not_mem_lineFeed (hspaced : Spaced fs cs) (hfs : ∀ f ∈ fs, Word f) : '\n' ∉ cs := by
  induction hspaced with
  | last word => exact (hfs word List.mem_cons_self).not_mem_lineFeed
  | @cons word between cs words hbetween _ _ ih =>
      obtain ⟨hword, hwords⟩ := List.forall_mem_cons.mp hfs
      rw [List.mem_append, List.mem_append, not_or, not_or]
      exact ⟨hword.not_mem_lineFeed, hbetween.not_mem_lineFeed, ih hwords⟩

theorem fields_gap (hgap : Gap gap) (cs : List Char) : fields (gap ++ cs) = fields cs := by
  induction gap with
  | nil => rfl
  | cons c gap ih =>
      rw [List.cons_append, fields, if_pos (hgap c List.mem_cons_self).1]
      exact ih fun d hd => hgap d (List.mem_cons_of_mem c hd)

theorem fields_of_gap (hgap : Gap gap) : fields gap = [] := by
  rw [← List.append_nil gap, fields_gap hgap, fields]

/-- A character that is no blank begins the first field. -/
theorem fields_cons (hc : isBlank c = false) (cs : List Char) :
    ∃ word words, fields (c :: cs) = (c :: word) :: words := by
  rw [fields, if_neg (by simp [hc])]
  unfold addToFields
  split
  · split
    · exact ⟨_, _, rfl⟩
    · exact ⟨_, _, rfl⟩
  · exact ⟨_, _, rfl⟩

/-- A word that a blank follows, or nothing, is a field. -/
theorem fields_word (hword : Word word) (hcs : cs.head?.all isBlank = true) :
    fields (word ++ cs) = word :: fields cs := by
  obtain ⟨hne, hword⟩ := hword
  induction word with
  | nil => exact absurd rfl hne
  | cons c word ih =>
      have hc : ¬ isBlank c = true := by simp [hword c List.mem_cons_self]
      rw [List.cons_append, fields, if_neg hc]
      cases word with
      | nil =>
          rw [List.nil_append]
          cases fields cs with
          | nil => rfl
          | cons f fs => exact if_pos hcs
      | cons d word =>
          have hrest := ih (List.cons_ne_nil d word) fun e he => hword e (List.mem_cons_of_mem c he)
          have hd : ¬ isBlank d = true := by simp [hword d (by simp)]
          rw [hrest]
          exact if_neg hd

theorem Gap.all_head? (hgap : Gap gap) : gap.head?.all isBlank = true := by
  cases gap with
  | nil => rfl
  | cons c gap => exact (hgap c List.mem_cons_self).1

/-- The fields of a line are the words that are written in it. -/
theorem fields_spaced (hspaced : Spaced fs cs) (hfs : ∀ f ∈ fs, Word f) (hgap : Gap gap) :
    fields (cs ++ gap) = fs := by
  induction hspaced with
  | last word => rw [fields_word (hfs word List.mem_cons_self) hgap.all_head?, fields_of_gap hgap]
  | @cons word between cs words hbetween hne _ ih =>
      have hhead : ((between ++ cs) ++ gap).head?.all isBlank = true := by
        obtain ⟨c, between, rfl⟩ := List.exists_cons_of_ne_nil hne
        exact hbetween.all_head?
      rw [List.append_assoc, fields_word (hfs word List.mem_cons_self) hhead, List.append_assoc,
        fields_gap hbetween, ih fun f hf => hfs f (List.mem_cons_of_mem word hf)]

/-! ## numerals -/

/-- A decimal numeral of a number: one digit or more, after a sign if any. -/
inductive Decimal : Int → List Char → Prop where
  | bare {digits : List Char} : digits ≠ [] → (∀ c ∈ digits, c.isDigit = true) →
      Decimal (Nat.ofDigitChars 10 digits 0) digits
  | plus {digits : List Char} : digits ≠ [] → (∀ c ∈ digits, c.isDigit = true) →
      Decimal (Nat.ofDigitChars 10 digits 0) ('+' :: digits)
  | minus {digits : List Char} : digits ≠ [] → (∀ c ∈ digits, c.isDigit = true) →
      Decimal (-Nat.ofDigitChars 10 digits 0) ('-' :: digits)

variable {digits : List Char} {i : Int}

/-- The numeral that a number is usually written as. -/
theorem decimal_toString (i : Int) : Decimal i (toString i).toList := by
  have hdigits : ∀ n : Nat, ∀ c ∈ Nat.toDigits 10 n, c.isDigit = true := fun n c hc =>
    Nat.isDigit_of_mem_toDigits (by decide) (by decide) hc
  have hvalue : ∀ n : Nat, Nat.ofDigitChars 10 (Nat.toDigits 10 n) 0 = n := fun n =>
    Nat.ofDigitChars_toDigits (by decide) (by decide)
  cases i with
  | ofNat n =>
      have hbare := Decimal.bare Nat.toDigits_ne_nil (hdigits n)
      rw [hvalue] at hbare
      change Decimal n (Nat.repr n).toList
      rwa [Nat.toList_repr]
  | negSucc n =>
      have hminus := Decimal.minus Nat.toDigits_ne_nil (hdigits (n + 1))
      rw [hvalue] at hminus
      change Decimal (-(n + 1 : Nat)) ("-" ++ Nat.repr (n + 1)).toList
      rwa [String.toList_append, Nat.toList_repr]

theorem bounds_of_isDigit (hc : c.isDigit = true) : 48 ≤ c.toNat ∧ c.toNat ≤ 57 :=
  Char.isDigit_iff_toNat.mp hc

theorem digit?_of_isDigit (hc : c.isDigit = true) : digit? 10 c = some (c.toNat - '0'.toNat) := by
  have hbounds := bounds_of_isDigit hc
  have hrange : '0' ≤ c ∧ c ≤ '9' := Char.isDigit_iff_toNat.mp hc
  have hzero : '0'.toNat = 48 := rfl
  rw [digit?, if_pos hrange]
  simp only [Option.filter_some, decide_eq_true_eq]
  rw [if_pos (by omega)]

theorem natFrom?_digits (hdigits : ∀ c ∈ digits, c.isDigit = true) (value : Nat) :
    natFrom? 10 value digits = some (Nat.ofDigitChars 10 digits value) := by
  induction digits generalizing value with
  | nil => rfl
  | cons c digits ih =>
      rw [natFrom?, digit?_of_isDigit (hdigits c List.mem_cons_self), Option.bind_some,
        ih fun d hd => hdigits d (List.mem_cons_of_mem c hd), Nat.ofDigitChars_cons,
        Nat.mul_comm]

theorem nat?_digits (hne : digits ≠ []) (hdigits : ∀ c ∈ digits, c.isDigit = true) :
    nat? 10 digits = some (Nat.ofDigitChars 10 digits 0) := by
  obtain ⟨c, digits, rfl⟩ := List.exists_cons_of_ne_nil hne
  exact natFrom?_digits hdigits 0

/-- A numeral is read as its number. -/
theorem int?_decimal (h : Decimal i cs) : int? cs = some i := by
  cases h with
  | bare hne hdigits =>
      obtain ⟨c, digits, rfl⟩ := List.exists_cons_of_ne_nil hne
      have hc := bounds_of_isDigit (hdigits c List.mem_cons_self)
      have hminus : c ≠ '-' := by rintro rfl; simp at hc
      have hplus : c ≠ '+' := by rintro rfl; simp at hc
      rw [int?]
      · rw [nat?_digits hne hdigits]
        rfl
      · simp [hminus]
      · simp [hplus]
  | plus hne hdigits =>
      rw [int?, nat?_digits hne hdigits]
      rfl
  | minus hne hdigits =>
      rw [int?, nat?_digits hne hdigits]
      rfl

theorem signed64?_decimal (h : Decimal i cs) (hlow : -halfWordSize ≤ i) (hhigh : i < halfWordSize) :
    signed64? cs = some i := by
  rw [signed64?, int?_decimal h]
  simp [Option.filter_some, hlow, hhigh]

/-- A numeral is one field. -/
theorem word_of_decimal (h : Decimal i cs) : Word cs := by
  have hblank : ∀ {c : Char}, c.isDigit = true → isBlank c = false := by
    intro c hc
    have hbounds := bounds_of_isDigit hc
    simp only [isBlank, Bool.or_eq_false_iff, Bool.and_eq_false_iff, decide_eq_false_iff_not,
      beq_eq_false_iff_ne]
    omega
  have hsign : ∀ {s : Char} {digits : List Char}, isBlank s = false →
      (∀ c ∈ digits, c.isDigit = true) → Word (s :: digits) := fun hs hdigits =>
    ⟨List.cons_ne_nil _ _, List.forall_mem_cons.mpr ⟨hs, fun c hc => hblank (hdigits c hc)⟩⟩
  cases h with
  | bare hne hdigits => exact ⟨hne, fun c hc => hblank (hdigits c hc)⟩
  | plus _ hdigits => exact hsign (by decide) hdigits
  | minus _ hdigits => exact hsign (by decide) hdigits

end Lineage.Text
