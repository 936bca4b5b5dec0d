import ShaDiff.Proofs.Text
import ShaDiff.Propagator.Configure

/-!
# Configurations read as they were written

A configuration is written as a text with an entry a line: the name of the entry and its
identifier, after a `c` that marks a comment or without it. Blanks stand between the fields
and may stand around them, and lines may be blank. Names are read as the entries they were
written for (`parse_name`). So to read a text is to take the entries written in it
(`readConfiguration_render`).
-/

namespace ShaDiff

-- ---------------------------------------------------------------------------
-- Names
-- ---------------------------------------------------------------------------

namespace Role

theorem ofName?_name {r : Role} (h : r ∈ configurable) : ofName? r.name = some r := by
  revert r
  decide

theorem isBlank_of_mem_name (r : Role) : ∀ c ∈ r.name.toList, Text.isBlank c = false :=
  Text.isBlank_of_all (by cases r <;> decide)

theorem not_mem_name (r : Role) : '_' ∉ r.name.toList := by
  cases r <;> decide

end Role

namespace Entry

/-- Whether an entry has a name of its own. Rounds and columns are integers of 32 and 64
bits. -/
def Writable : Entry → Prop
  | order | zero => True
  | bit role round column slot => role ∈ Role.configurable ∧ Text.SignedIn 32 round ∧
    column < 1 <<< 64 ∧ ∀ i ∈ slot, i < 2

theorem toList_name (role : Role) (round : Int) (column : Nat) (slot : Option Nat) :
    (bit role round column slot).name.toList = role.name.toList ++ '_' ::
      ((toString round).toList ++ '_' :: ((toString column).toList ++ (suffix slot).toList)) := by
  simp [name, toString]

theorem split_name {cs : List Char} (h : '_' ∉ cs) : Text.split (· == '_') cs = [cs] :=
  Text.split_of_forall fun _ hc => beq_false_of_ne fun heq => h (heq ▸ hc)

theorem not_mem_toString (i : Int) : '_' ∉ (toString i).toList := by
  intro h
  rcases Text.isDigit_of_mem_toString h with heq | hdigit
  · exact absurd heq (by decide)
  · exact absurd hdigit (by decide)

theorem toList_suffix (i : Nat) :
    (suffix (some i)).toList = '_' :: (if i = 0 then "f" else "g").toList := by
  cases i with
  | zero => rfl
  | succ i =>
    show "_g".toList = _
    rw [if_neg (Nat.succ_ne_zero i)]
    decide

theorem splitAt_name (role : Role) (round : Int) (column : Nat) (slot : Option Nat) :
    Text.splitAt '_' (bit role round column slot).name =
      [role.name, toString round, toString column] ++
        (slot.map fun i => if i = 0 then "f" else "g").toList := by
  have hcolumn : '_' ∉ (toString column).toList := not_mem_toString column
  rw [Text.splitAt, toList_name, Text.split_append_cons rfl, split_name role.not_mem_name,
    Text.split_append_cons rfl, split_name (not_mem_toString round)]
  cases slot with
  | none =>
    rw [show (suffix none).toList = [] from rfl, List.append_nil, split_name hcolumn]
    simp only [List.map_append, List.map_cons, List.map_nil, String.ofList_toList]
    rfl
  | some i =>
    have hsuffix : '_' ∉ (if i = 0 then "f" else "g").toList := by split <;> decide
    rw [toList_suffix, Text.split_append_cons rfl, split_name hcolumn, split_name hsuffix]
    simp only [List.map_append, List.map_cons, List.map_nil, String.ofList_toList]
    rfl

theorem ofParts_name {role : Role} {round : Int} {column : Nat} {slot : Option Nat}
    (h : (bit role round column slot).Writable) {suffix : Option String}
    (hsuffix : suffix.map slotOfSuffix? = slot.map some) (name : String) :
    ofParts name role.name (toString round) (toString column) suffix =
      .ok (.bit role round column slot) := by
  obtain ⟨hrole, hround, hcolumn, -⟩ := h
  have hround : Text.signed? 32 (toString round) = some round := Text.signed?_toString hround
  have hcolumn : Text.unsigned? 64 (toString column) = some column :=
    Text.unsigned?_toString hcolumn
  rw [ofParts, Role.ofName?_name hrole]
  simp only [hround, hcolumn, hsuffix]
  cases slot <;> rfl

theorem parse_name {e : Entry} (h : e.Writable) : Entry.parse e.name = .ok e := by
  cases e with
  | order => rfl
  | zero => rfl
  | bit role round column slot =>
    have hword (w : String) (hw : '_' ∉ w.toList) : (bit role round column slot).name ≠ w := by
      rintro rfl
      exact hw (by rw [toList_name]; simp)
    rw [Entry.parse, if_neg (hword _ (by decide)), if_neg (hword _ (by decide)), splitAt_name]
    match slot, h with
    | none, h => exact ofParts_name h rfl _
    | some 0, h => exact ofParts_name h rfl _
    | some 1, h => exact ofParts_name h rfl _
    | some (i + 2), h => exact absurd (h.2.2.2 _ rfl) (by omega)

theorem isWord_name (e : Entry) : Text.IsWord e.name.toList := by
  cases e with
  | order => exact ⟨by decide, Text.isBlank_of_all (by decide)⟩
  | zero => exact ⟨by decide, Text.isBlank_of_all (by decide)⟩
  | bit role round column slot =>
    have hsuffix : ∀ c ∈ (suffix slot).toList, Text.isBlank c = false := by
      cases slot with
      | none => exact List.forall_mem_nil _
      | some i =>
        rw [toList_suffix]
        exact Text.isBlank_of_all (by split <;> decide)
    have hcolumn := (Text.isWord_toString column).isBlank
    rw [toList_name]
    refine ⟨by simp, ?_⟩
    simp only [List.forall_mem_append, List.forall_mem_cons]
    exact ⟨role.isBlank_of_mem_name, rfl, (Text.isWord_toString round).isBlank, rfl, hcolumn,
      hsuffix⟩

end Entry

-- ---------------------------------------------------------------------------
-- Texts
-- ---------------------------------------------------------------------------

namespace Configuration

/-- An entry that can be written, with an identifier of 64 bits. -/
structure Item where
  entry : Entry
  identifier : Int
  writable : entry.Writable
  signedIn : Text.SignedIn 64 identifier

structure Blanks where
  chars : List Char
  isBlank : ∀ c ∈ chars, Text.isBlank c = true
  newline_not_mem : '\n' ∉ chars

structure Gap extends Blanks where
  ne_nil : chars ≠ []

inductive Row
  | blank (blanks : Blanks)
  /-- An entry, which may be marked as a comment. -/
  | item (indent : Blanks) (mark : Option Gap) (i : Item) (gap : Gap) (trail : Blanks)

inductive Ending
  | lf
  | crlf

end Configuration

structure Configuration where
  rows : List (Configuration.Row × Configuration.Ending)
  last : Configuration.Row

namespace Configuration

def Item.pair (i : Item) : String × Int := (i.entry.name, i.identifier)

def Row.item? : Row → Option Item
  | blank _ => none
  | item _ _ i _ _ => some i

def Row.chars : Row → List Char
  | blank blanks => blanks.chars
  | item indent mark i gap trail =>
    indent.chars ++ (mark.elim [] (fun g => 'c' :: g.chars) ++ (i.entry.name.toList ++
      (gap.chars ++ ((toString i.identifier).toList ++ trail.chars))))

def Ending.chars : Ending → List Char
  | lf => ['\n']
  | crlf => ['\r', '\n']

def items (t : Configuration) : List Item := t.rows.filterMap (·.1.item?) ++ t.last.item?.toList

def chars (t : Configuration) : List Char :=
  t.rows.flatMap (fun (row, ending) => row.chars ++ ending.chars) ++ t.last.chars

def render (t : Configuration) : String := String.ofList t.chars

-- ---------------------------------------------------------------------------
-- Rows
-- ---------------------------------------------------------------------------

theorem words_chars (row : Row) : Text.words row.chars = match row with
    | .blank _ => []
    | .item _ mark i _ _ => (mark.map fun _ => ['c']).toList ++
      [i.entry.name.toList, (toString i.identifier).toList] := by
  cases row with
  | blank blanks => exact Text.words_of_blanks blanks.isBlank
  | item indent mark i gap trail =>
    have hfields : Text.words (i.entry.name.toList ++
        (gap.chars ++ ((toString i.identifier).toList ++ trail.chars))) =
        [i.entry.name.toList, (toString i.identifier).toList] := by
      rw [Text.words_append_append gap.ne_nil gap.isBlank, Text.words_append_blanks trail.isBlank,
        i.entry.isWord_name.words, (Text.isWord_toString _).words]
      rfl
    rw [Row.chars, Text.words_blanks_append indent.isBlank]
    cases mark with
    | none => exact hfields
    | some g =>
      rw [Option.elim_some, ← List.singleton_append, List.append_assoc,
        Text.words_append_append g.ne_nil g.isBlank, hfields]
      rfl

theorem newline_not_mem_chars (row : Row) : '\n' ∉ row.chars := by
  have hword {cs : List Char} (h : Text.IsWord cs) : '\n' ∉ cs := fun hmem =>
    absurd (h.isBlank _ hmem) (by decide)
  cases row with
  | blank blanks => exact blanks.newline_not_mem
  | item indent mark i gap trail =>
    have hmark : '\n' ∉ mark.elim [] (fun g => 'c' :: g.chars) := by
      cases mark with
      | none => exact List.not_mem_nil
      | some g => simpa using g.newline_not_mem
    simp only [Row.chars, List.mem_append, not_or]
    exact ⟨indent.newline_not_mem, hmark, hword i.entry.isWord_name, gap.newline_not_mem,
      hword (Text.isWord_toString _), trail.newline_not_mem⟩

theorem item?_of_chars_eq_nil {row : Row} (h : row.chars = []) : row.item? = none := by
  have hwords := words_chars row
  cases row with
  | blank => rfl
  | item indent mark i gap trail =>
    rw [h] at hwords
    exact absurd hwords (List.append_ne_nil_of_right_ne_nil _ (List.cons_ne_nil _ _)).symm

theorem items_cons (row : Row) (ending : Ending) (rows : List (Row × Ending)) (last : Row) :
    items ⟨(row, ending) :: rows, last⟩ = row.item?.toList ++ items ⟨rows, last⟩ := by
  cases row <;> rfl

theorem lines_render_cons (row : Row) (ending : Ending) (rows : List (Row × Ending)) (last : Row) :
    ∃ cs, Text.words cs = Text.words row.chars ∧
      Text.lines (render ⟨(row, ending) :: rows, last⟩) =
        some (String.ofList cs) :: Text.lines (render ⟨rows, last⟩) := by
  have hrow := newline_not_mem_chars row
  cases ending with
  | lf =>
    refine ⟨Text.dropLast? '\r' row.chars, Text.words_dropLast? _, ?_⟩
    rw [render, render, ← Text.lines_append_cons hrow]
    simp [chars, Ending.chars]
  | crlf =>
    refine ⟨Text.dropLast? '\r' (row.chars ++ ['\r']), ?_, ?_⟩
    · rw [Text.words_dropLast?, Text.words_append_blanks (List.forall_mem_singleton.mpr rfl)]
    · have hreturn : '\n' ∉ row.chars ++ ['\r'] := by simpa using hrow
      rw [render, render, ← Text.lines_append_cons hreturn]
      simp [chars, Ending.chars]

theorem name_ne_mark (i : Item) : i.entry.name ≠ "c" := by
  intro h
  have hparse := Entry.parse_name i.writable
  rw [h] at hparse
  cases hparse

theorem entryOfLine_of_words {row : Row} {cs : List Char} (h : Text.words cs = Text.words row.chars)
    (number : Nat) : Propagator.entryOfLine number (some (String.ofList cs)) =
      .ok (row.item?.map Item.pair) := by
  unfold Propagator.entryOfLine
  dsimp only
  rw [Text.fields_ofList, h, words_chars]
  cases row with
  | blank blanks => rfl
  | item indent mark i gap trail =>
    have hvalue : Text.signed? 64 i.identifier.repr = some i.identifier :=
      Text.signed?_toString i.signedIn
    cases mark with
    | none => simp [name_ne_mark i, hvalue, Row.item?, Item.pair]
    | some g => simp [hvalue, Row.item?, Item.pair]

end Configuration

/-- Takes entries in turn, up to the first one that is rejected. -/
def Propagator.configureAll {ρ : Type} (p : Propagator ρ) :
    List (String × Int) → Except Breach (Except Fault Unit × Propagator ρ)
  | [] => .ok (.ok (), p)
  | (name, value) :: rest =>
    match p.configure name value with
    | .error breach => .error breach
    | .ok (.error fault, p) => .ok (.error fault, p)
    | .ok (.ok (), p) => p.configureAll rest

namespace Configuration

-- ---------------------------------------------------------------------------
-- Reading
-- ---------------------------------------------------------------------------

variable {ρ : Type}

theorem readLines_cons {row : Row} {line : Text.Line} {number : Nat}
    (h : Propagator.entryOfLine number line = .ok (row.item?.map Item.pair)) {rest : List Item}
    {lines : List (Text.Line × Nat)}
    (hrest : ∀ (p : Propagator ρ) (count : Nat), p.readLines count lines =
      (p.configureAll (rest.map Item.pair)).map fun (result, q) =>
        (result.map fun () => count + rest.length, q)) (p : Propagator ρ) (count : Nat) :
    p.readLines count ((line, number) :: lines) =
      (p.configureAll ((row.item?.toList ++ rest).map Item.pair)).map fun (result, q) =>
        (result.map fun () => count + (row.item?.toList ++ rest).length, q) := by
  rw [Propagator.readLines, h]
  cases row.item? with
  | none => exact hrest p count
  | some i =>
    simp only [Option.map_some, Option.toList_some, List.singleton_append, List.map_cons,
      List.length_cons, Propagator.configureAll, Item.pair]
    cases p.configure i.entry.name i.identifier with
    | error breach => rfl
    | ok configured =>
      obtain ⟨result, q⟩ := configured
      cases result with
      | error fault => rfl
      | ok u =>
        cases u
        simp only [hrest, Nat.add_assoc, Nat.add_comm 1]

theorem readLines_chars (t : Configuration) (p : Propagator ρ) (count number : Nat) :
    p.readLines count ((Text.lines t.render).zipIdx number) =
      (p.configureAll (t.items.map Item.pair)).map fun (result, q) =>
        (result.map fun () => count + t.items.length, q) := by
  obtain ⟨rows, last⟩ := t
  induction rows generalizing p count number with
  | nil =>
    have hlast : Text.lines (render ⟨[], last⟩) =
        if last.chars.isEmpty then [] else [some (String.ofList last.chars)] :=
      Text.lines_of_not_mem (newline_not_mem_chars last)
    have hitems : items ⟨[], last⟩ = last.item?.toList ++ [] := (List.append_nil _).symm
    rw [hlast, hitems]
    split
    · next hempty =>
      rw [item?_of_chars_eq_nil (List.isEmpty_iff.mp hempty)]
      rfl
    · exact readLines_cons (entryOfLine_of_words rfl number) (fun p count => rfl) p count
  | cons written rows ih =>
    obtain ⟨row, ending⟩ := written
    obtain ⟨cs, hcs, hlines⟩ := lines_render_cons row ending rows last
    rw [hlines, List.zipIdx_cons, items_cons]
    exact readLines_cons (entryOfLine_of_words hcs number) (fun p count => ih p count _) p count

/-- To read a configuration, as the bytes of its text, is to take the entries that were
written, each of which its name stands for. It ends with the first entry that is rejected,
and answers the fault of that, or else how many entries there were. -/
theorem readConfiguration_render (t : Configuration) (p : Propagator ρ) :
    t.items.map (fun i => Entry.parse i.entry.name) = t.items.map (fun i => .ok i.entry) ∧
      p.readConfiguration (Text.linesOfBytes t.render.toUTF8.data.toList) =
        (p.configureAll (t.items.map fun i => (i.entry.name, i.identifier))).map
          fun (result, q) => (result.map fun () => t.items.length, q) := by
  refine ⟨List.map_congr_left fun i _ => Entry.parse_name i.writable, ?_⟩
  rw [Text.linesOfBytes_toUTF8, Propagator.readConfiguration, readLines_chars]
  simp only [Nat.zero_add]
  rfl

/-- Lines with different ends, a blank one among them. -/
example :
    let nothing : Blanks := ⟨[], List.forall_mem_nil _, by decide⟩
    let space : Gap := ⟨⟨[' '], List.forall_mem_singleton.mpr rfl, by decide⟩, by decide⟩
    let zero : Item := ⟨.zero, 1, trivial, by decide⟩
    let register : Item := ⟨.bit .a (-4) 0 none, 4, ⟨by decide, by decide, by decide, by simp⟩,
      by decide⟩
    let message : Item := ⟨.bit .w 0 3 (some 1), -7,
      ⟨by decide, by decide, by decide, by simp⟩, by decide⟩
    render
      { rows := [(.item nothing (some space) zero space nothing, .lf),
          (.item space.toBlanks (some space) register space nothing, .crlf), (.blank nothing, .lf)]
        last := .item nothing none message space nothing } =
      "c zero 1\n c A_-4_0 4\r\n\nW_0_3_g -7" := by decide +kernel

end Configuration

end ShaDiff
