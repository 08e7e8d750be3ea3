import Lineage.CommitList
import Lineage.Proofs.Text

/-!
# Lineage.Proofs.CommitList.Written

Commit lists that are written as text, in every way that there is: with any
gaps between the fields of a line and around them, with either ending of a line
and the last one unended, and with blank lines and comments anywhere.

* `CommitList.WritesLine`, `CommitList.Writes` — the texts of a commit list.
* `CommitList.exists_writes` — each list that can be written has a text.
* `CommitList.read_of_writes` — which is read as the list that was written.
-/

namespace Lineage

namespace CommitList

variable {c? : Option (Commit String)} {line text : List Char} {commits : List (Commit String)}

/-! ## what can be written -/

/-- A commit that can stand on a line: its identifiers are words, it would not be
taken for a comment, and its timestamp is a signed number of 64 bits. -/
structure Writable (c : Commit String) : Prop where
  id : Text.Word c.id.toList
  comment : c.id.toList.head? ≠ some '#'
  parents : ∀ p ∈ c.parents, Text.Word p.toList
  timestamp : -Text.halfWordSize ≤ c.timestamp ∧ c.timestamp < Text.halfWordSize

/-- A line that writes a commit, or none. -/
inductive WritesLine : Option (Commit String) → List Char → Prop where
  | commit {c : Commit String} {before after fields time : List Char} :
      Text.Gap before → Text.Gap after → Text.Decimal c.timestamp time →
      Text.Spaced (c.id.toList :: time :: c.parents.map String.toList) fields →
      WritesLine (some c) (before ++ (fields ++ after))
  | blank {gap : List Char} : Text.Gap gap → WritesLine none gap
  | comment {before rest : List Char} : Text.Gap before → '\n' ∉ rest →
      WritesLine none (before ++ '#' :: rest)

/-- A text that writes a commit list, line by line. -/
inductive Writes : List (Commit String) → List Char → Prop where
  | nil : Writes [] []
  | unended {c? : Option (Commit String)} {line : List Char} :
      WritesLine c? line → line ≠ [] → Writes c?.toList line
  | lineFeed {c? : Option (Commit String)} {commits : List (Commit String)}
      {line text : List Char} :
      WritesLine c? line → Writes commits text →
      Writes (c?.toList ++ commits) (line ++ '\n' :: text)
  | carriageReturn {c? : Option (Commit String)} {commits : List (Commit String)}
      {line text : List Char} :
      WritesLine c? line → Writes commits text →
      Writes (c?.toList ++ commits) (line ++ '\r' :: '\n' :: text)

/-- A list is written with one blank between fields and nothing around them. -/
theorem exists_writes (commits : List (Commit String)) : ∃ text, Writes commits text := by
  induction commits with
  | nil => exact ⟨[], .nil⟩
  | cons c commits ih =>
      obtain ⟨text, htext⟩ := ih
      obtain ⟨fields, hfields⟩ := Text.exists_spaced c.id.toList
        ((toString c.timestamp).toList :: c.parents.map String.toList)
      have hline : WritesLine (some c) ([] ++ (fields ++ [])) :=
        .commit (by decide) (by decide) (Text.decimal_toString c.timestamp) hfields
      exact ⟨_, .lineFeed hline htext⟩

/-! ## one line -/

theorem Writable.words {c : Commit String} (hc : Writable c) {time : List Char}
    (htime : Text.Decimal c.timestamp time) :
    ∀ f ∈ c.id.toList :: time :: c.parents.map String.toList, Text.Word f := by
  simp only [List.forall_mem_cons, List.forall_mem_map]
  exact ⟨hc.id, Text.word_of_decimal htime, hc.parents⟩

/-- A carriage return at the end of a line is one more blank of it, or one more
character of the comment. -/
theorem WritesLine.concat_return (h : WritesLine c? line) : WritesLine c? (line ++ ['\r']) := by
  have hreturn : Text.Gap ['\r'] := by decide
  cases h with
  | commit hbefore hafter htime hfields =>
      rw [List.append_assoc, List.append_assoc]
      exact .commit hbefore (hafter.append hreturn) htime hfields
  | blank hgap => exact .blank (hgap.append hreturn)
  | comment hbefore hrest =>
      rw [List.append_assoc]
      refine .comment hbefore fun hmem => ?_
      rcases List.mem_append.mp hmem with h | h
      · exact hrest h
      · exact absurd (List.mem_singleton.mp h) (by decide)

theorem WritesLine.not_mem_lineFeed (h : WritesLine c? line) (hc : ∀ c ∈ c?.toList, Writable c) :
    '\n' ∉ line := by
  cases h with
  | commit hbefore hafter htime hfields =>
      have hwords := (hc _ List.mem_cons_self).words htime
      rw [List.mem_append, List.mem_append, not_or, not_or]
      exact ⟨hbefore.not_mem_lineFeed, hfields.not_mem_lineFeed hwords, hafter.not_mem_lineFeed⟩
  | blank hgap => exact hgap.not_mem_lineFeed
  | comment hbefore hrest =>
      rw [List.mem_append, List.mem_cons, not_or, not_or]
      exact ⟨hbefore.not_mem_lineFeed, by decide, hrest⟩

theorem readLine_of_comment {word : List Char} {words : List (List Char)}
    (h : Text.fields line = ('#' :: word) :: words) : readLine line = .ok none := by
  rw [readLine, h]
  rfl

/-- The fields of a line that is no comment: identifier, timestamp, parents. -/
theorem readLine_of_fields {id time : List Char} {parents : List (List Char)} {t : Int}
    (h : Text.fields line = id :: time :: parents) (hid : id.head? ≠ some '#')
    (htime : Text.signed64? time = some t) :
    readLine line = .ok (some ⟨String.ofList id, parents.map String.ofList, t⟩) := by
  rw [readLine, h]
  split
  case h_1 hnil => exact absurd hnil (List.cons_ne_nil _ _)
  case h_2 hhash => exact absurd (congrArg List.head? (List.cons.inj hhash).1) hid
  case h_3 hone => exact absurd (List.cons.inj hone).2 (List.cons_ne_nil _ _)
  case h_4 hfields =>
    obtain ⟨rfl, rfl, rfl⟩ := hfields
    rw [htime]

theorem readLine_of_writesLine (h : WritesLine c? line) (hc : ∀ c ∈ c?.toList, Writable c) :
    readLine line = .ok c? := by
  cases h with
  | @commit c before after fields time hbefore hafter htime hfields =>
      have hwritable := hc c List.mem_cons_self
      have hread : Text.fields (before ++ (fields ++ after)) =
          c.id.toList :: time :: c.parents.map String.toList := by
        rw [Text.fields_gap hbefore, Text.fields_spaced hfields (hwritable.words htime) hafter]
      have hnumber : Text.signed64? time = some c.timestamp :=
        Text.signed64?_decimal htime hwritable.timestamp.1 hwritable.timestamp.2
      have hparents : (c.parents.map String.toList).map String.ofList = c.parents := by
        rw [List.map_map]
        exact List.map_id'' (fun _ => String.ofList_toList) _
      rw [readLine_of_fields hread hwritable.comment hnumber, String.ofList_toList, hparents]
  | blank hgap =>
      rw [readLine, Text.fields_of_gap hgap]
  | @comment before rest hbefore hrest =>
      obtain ⟨word, words, hread⟩ := Text.fields_cons (c := '#') (by decide) rest
      exact readLine_of_comment ((Text.fields_gap hbefore _).trans hread)

/-! ## all lines -/

theorem readLines_lineFeed (hline : WritesLine c? line) (hc : ∀ c ∈ c?.toList, Writable c)
    {number : Nat} (hrest : readLines (number + 1) (Text.lines text) = .ok commits) :
    readLines number (Text.lines (line ++ '\n' :: text)) = .ok (c?.toList ++ commits) := by
  rw [Text.lines_ended (hline.not_mem_lineFeed hc), readLines, readLine_of_writesLine hline hc,
    hrest]

/-- The lines that write a commit list are read as that list, whatever the
number of the first one is. -/
theorem readLines_of_writes (h : Writes commits text) (hc : ∀ c ∈ commits, Writable c)
    (number : Nat) : readLines number (Text.lines text) = .ok commits := by
  induction h generalizing number with
  | nil => rfl
  | @unended c? line hline hne =>
      rw [Text.lines_unended (hline.not_mem_lineFeed hc) hne, readLines,
        readLine_of_writesLine hline hc]
      exact congrArg Except.ok (List.append_nil _)
  | @lineFeed c? commits line text hline _ ih =>
      obtain ⟨hfirst, hrest⟩ := List.forall_mem_append.mp hc
      exact readLines_lineFeed hline hfirst (ih hrest (number + 1))
  | @carriageReturn c? commits line text hline _ ih =>
      obtain ⟨hfirst, hrest⟩ := List.forall_mem_append.mp hc
      have hjoin : line ++ '\r' :: '\n' :: text = (line ++ ['\r']) ++ '\n' :: text := by
        rw [List.append_assoc]
        rfl
      rw [hjoin]
      exact readLines_lineFeed hline.concat_return hfirst (ih hrest (number + 1))

/-- Every text of a commit list is read as that list. -/
theorem read_of_writes {commits : List (Commit String)} {text : String}
    (hwritable : ∀ c ∈ commits, Writable c) (hwrites : Writes commits text.toList) :
    read text = .ok commits :=
  readLines_of_writes hwrites hwritable 1

/-- Two commits with the largest and the least timestamp. -/
def farCommits : List (Commit String) :=
  [⟨"A", ["#1", "B#", "B#"], 9223372036854775807⟩, ⟨"B#", [], -9223372036854775808⟩]

/-- The two of them after a comment, with blanks of many kinds. -/
def farText : String :=
  "\t# A 1\r\n\u3000A\u00859223372036854775807 \t#1\rB#\u2028B# \r\n\x0b\n" ++
    "B# -9223372036854775808\r"

/-- Neither the parent `#1` nor the line that is not ended is passed over. -/
theorem read_of_writes_far :
    (∀ c ∈ farCommits, Writable c) ∧ Writes farCommits farText.toList ∧
      read farText = .ok farCommits := by
  have hwritable : ∀ c ∈ farCommits, Writable c := by
    simp only [farCommits, List.forall_mem_cons]
    exact ⟨⟨by decide, by decide, by decide, by decide⟩,
      ⟨by decide, by decide, by decide, by decide⟩, fun c hc => absurd hc List.not_mem_nil⟩
  have hcomment : WritesLine none (['\t'] ++ '#' :: " A 1".toList) :=
    .comment (by decide) (by decide)
  have hfields : Text.Spaced
      ["A".toList, "9223372036854775807".toList, "#1".toList, "B#".toList, "B#".toList]
      ("A".toList ++ (['\u0085'] ++ ("9223372036854775807".toList ++ ([' ', '\t'] ++
        ("#1".toList ++ (['\r'] ++ ("B#".toList ++ (['\u2028'] ++ "B#".toList)))))))) :=
    .cons _ (by decide) (by decide) <| .cons _ (by decide) (by decide) <|
      .cons _ (by decide) (by decide) <| .cons _ (by decide) (by decide) <| .last _
  have hfirst : WritesLine (some farCommits[0]) (['\u3000'] ++ (_ ++ [' '])) :=
    .commit (by decide) (by decide) (Text.decimal_toString 9223372036854775807) hfields
  have hblank : WritesLine none ['\x0b'] := .blank (by decide)
  have hsecond : WritesLine (some farCommits[1])
      ([] ++ (("B#".toList ++ ([' '] ++ "-9223372036854775808".toList)) ++ ['\r'])) :=
    .commit (by decide) (by decide) (Text.decimal_toString (-9223372036854775808))
      (.cons _ (by decide) (by decide) (.last _))
  obtain ⟨text, rfl, hwrites⟩ : ∃ text, text = farText.toList ∧ Writes farCommits text :=
    ⟨_, by decide, .carriageReturn hcomment <| .carriageReturn hfirst <| .lineFeed hblank <|
      .unended hsecond (by decide)⟩
  exact ⟨hwritable, hwrites, read_of_writes hwritable hwrites⟩

end CommitList

end Lineage
