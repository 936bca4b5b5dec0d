import Mathlib.Data.List.Induction
import ShaDiff.Text.Line
import ShaDiff.Text.Numeral

/-!
# Texts read as they were put together

A cut at separators takes two texts apart that one separator joins (`split_append_cons`). So
fields are the same however many blanks stand between and around them, and a line is what
stands before its end. To cut the bytes of a text into lines is to cut the text
(`linesOfBytes_toUTF8`), and integers are read as they are written.
-/

namespace ShaDiff.Text

-- ---------------------------------------------------------------------------
-- Cuts
-- ---------------------------------------------------------------------------

section

variable {α : Type} {isSeparator : α → Bool} {as bs : List α} {x : α}

theorem split_of_forall (h : ∀ a ∈ as, isSeparator a = false) : split isSeparator as = [as] := by
  induction as with
  | nil => rfl
  | cons a as ih =>
    obtain ⟨ha, has⟩ := List.forall_mem_cons.mp h
    simp [split, ha, ih has]

theorem split_append_cons (hx : isSeparator x = true) (as bs : List α) :
    split isSeparator (as ++ x :: bs) = split isSeparator as ++ split isSeparator bs := by
  induction as with
  | nil => simp [split, hx]
  | cons a as ih =>
    rw [List.cons_append, split, split, ih]
    split
    · rfl
    · cases hs : split isSeparator as with
      | nil => exact absurd hs (split_ne_nil _ _)
      | cons piece pieces => rfl

theorem split_append_of_forall (h : ∀ a ∈ as, isSeparator a = false) {piece : List α}
    {pieces : List (List α)} (hbs : split isSeparator bs = piece :: pieces) :
    split isSeparator (as ++ bs) = (as ++ piece) :: pieces := by
  induction as with
  | nil => exact hbs
  | cons a as ih =>
    obtain ⟨ha, has⟩ := List.forall_mem_cons.mp h
    simp [split, ha, ih has]

end

-- ---------------------------------------------------------------------------
-- Fields
-- ---------------------------------------------------------------------------

section

variable {cs blanks : List Char} {c : Char}

def words (cs : List Char) : List (List Char) := (split isBlank cs).filter (!·.isEmpty)

structure IsWord (cs : List Char) : Prop where
  ne_nil : cs ≠ []
  isBlank : ∀ c ∈ cs, isBlank c = false

theorem isBlank_of_all (h : cs.all (!isBlank ·) = true) : ∀ c ∈ cs, isBlank c = false :=
  fun c hc => by simpa using List.all_eq_true.mp h c hc

theorem fields_ofList (cs : List Char) :
    fields (String.ofList cs) = (words cs).map String.ofList := by
  rw [fields, words, String.toList_ofList]

theorem words_append_cons (hc : isBlank c = true) (cs ds : List Char) :
    words (cs ++ c :: ds) = words cs ++ words ds := by
  rw [words, split_append_cons hc, List.filter_append, words, words]

theorem words_of_blanks (h : ∀ c ∈ blanks, isBlank c = true) : words blanks = [] := by
  induction blanks with
  | nil => rfl
  | cons c blanks ih =>
    obtain ⟨hc, hblanks⟩ := List.forall_mem_cons.mp h
    rw [← List.nil_append (c :: blanks), words_append_cons hc, ih hblanks]
    rfl

/-- Blanks keep fields apart and leave no field. -/
theorem words_append_append (hne : blanks ≠ []) (h : ∀ c ∈ blanks, isBlank c = true)
    (cs ds : List Char) : words (cs ++ (blanks ++ ds)) = words cs ++ words ds := by
  cases blanks with
  | nil => exact absurd rfl hne
  | cons c blanks =>
    obtain ⟨hc, hblanks⟩ := List.forall_mem_cons.mp h
    clear hne h
    rw [List.cons_append, words_append_cons hc]
    congr 1
    induction blanks with
    | nil => rfl
    | cons b blanks ih =>
      obtain ⟨hb, hblanks⟩ := List.forall_mem_cons.mp hblanks
      rw [List.cons_append, ← List.nil_append (b :: _), words_append_cons hb, ih hblanks]
      rfl

theorem words_append_blanks (h : ∀ c ∈ blanks, isBlank c = true) (cs : List Char) :
    words (cs ++ blanks) = words cs := by
  cases blanks with
  | nil => rw [List.append_nil]
  | cons c blanks =>
    obtain ⟨hc, hblanks⟩ := List.forall_mem_cons.mp h
    rw [words_append_cons hc, words_of_blanks hblanks, List.append_nil]

theorem words_blanks_append (h : ∀ c ∈ blanks, isBlank c = true) (cs : List Char) :
    words (blanks ++ cs) = words cs := by
  cases blanks with
  | nil => rfl
  | cons c blanks => exact words_append_append (by simp) h [] cs

theorem IsWord.words (h : IsWord cs) : words cs = [cs] := by
  rw [Text.words, split_of_forall h.isBlank]
  cases cs with
  | nil => exact absurd rfl h.ne_nil
  | cons => rfl

/-- A carriage return that goes with the end of a line is in no field. -/
theorem words_dropLast? (cs : List Char) : words (dropLast? '\r' cs) = words cs := by
  unfold dropLast?
  split
  · next h =>
    obtain ⟨ds, rfl⟩ := List.getLast?_eq_some_iff.mp (eq_of_beq h)
    rw [List.dropLast_concat, words_append_blanks (List.forall_mem_singleton.mpr rfl)]
  · rfl

end

-- ---------------------------------------------------------------------------
-- Lines
-- ---------------------------------------------------------------------------

section

variable {cs : List Char}

theorem ofPieces_cons {α : Type} [BEq α] (a : α) (piece : List α) {pieces : List (List α)}
    (h : pieces ≠ []) : ofPieces a (piece :: pieces) = dropLast? a piece :: ofPieces a pieces := by
  cases pieces with
  | nil => exact absurd rfl h
  | cons => rfl

theorem split_newline (h : '\n' ∉ cs) : split (· == '\n') cs = [cs] :=
  split_of_forall fun _ hc => beq_false_of_ne fun heq => h (heq ▸ hc)

theorem lines_append_cons (h : '\n' ∉ cs) (ds : List Char) :
    lines (String.ofList (cs ++ '\n' :: ds)) =
      some (String.ofList (dropLast? '\r' cs)) :: lines (String.ofList ds) := by
  simp only [lines, String.toList_ofList]
  rw [split_append_cons (by rfl), split_newline h, List.singleton_append,
    ofPieces_cons _ _ (split_ne_nil _ _), List.map_cons]

theorem lines_of_not_mem (h : '\n' ∉ cs) :
    lines (String.ofList cs) = if cs.isEmpty then [] else [some (String.ofList cs)] := by
  simp only [lines, String.toList_ofList, split_newline h, ofPieces]
  split <;> rfl

end

-- ---------------------------------------------------------------------------
-- Bytes
-- ---------------------------------------------------------------------------

section

variable {a c : Char} {b : UInt8}

theorem mem_utf8EncodeChar (ha : a.toNat < 128) :
    UInt8.ofNat a.toNat ∈ String.utf8EncodeChar c ↔ c = a := by
  have hbyte (n : Nat) : UInt8.ofNat a.toNat = UInt8.ofNat n ↔ a.toNat = n % 256 := by
    rw [← UInt8.toNat_inj, UInt8.toNat_ofNat', UInt8.toNat_ofNat', Nat.mod_eq_of_lt (by omega)]
  have hchar : c = a ↔ a.toNat = c.toNat := by
    rw [← Char.toNat_inj]
    exact eq_comm
  rw [String.utf8EncodeChar.eq_1, hchar]
  have hval : c.val.toNat = c.toNat := rfl
  rw [hval]
  split
  · rw [List.mem_singleton, hbyte]
    omega
  · split
    · simp only [List.mem_cons, List.not_mem_nil, or_false, hbyte]
      omega
    · split
      · simp only [List.mem_cons, List.not_mem_nil, or_false, hbyte]
        omega
      · simp only [List.mem_cons, List.not_mem_nil, or_false, hbyte]
        omega

theorem utf8EncodeChar_of_ascii (ha : a.toNat < 128) :
    String.utf8EncodeChar a = [UInt8.ofNat a.toNat] := by
  have hval : a.val.toNat = a.toNat := rfl
  rw [String.utf8EncodeChar.eq_1, hval, if_pos (by omega)]

/-- To cut bytes at an ASCII character is to cut the text. -/
theorem split_utf8Encode (ha : a.toNat < 128) (cs : List Char) :
    split (· == UInt8.ofNat a.toNat) (cs.flatMap String.utf8EncodeChar) =
      (split (· == a) cs).map (·.flatMap String.utf8EncodeChar) := by
  induction cs with
  | nil => rfl
  | cons c cs ih =>
    rw [List.flatMap_cons, split]
    by_cases hc : c = a
    · subst hc
      rw [utf8EncodeChar_of_ascii ha, List.singleton_append, split, if_pos (beq_self_eq_true _),
        if_pos (beq_self_eq_true _), ih]
      rfl
    · have hfree : ∀ b ∈ String.utf8EncodeChar c, (b == UInt8.ofNat a.toNat) = false := fun b hb =>
        beq_false_of_ne fun heq => hc ((mem_utf8EncodeChar ha).mp (heq ▸ hb))
      rw [if_neg (by simpa using hc)]
      cases hs : split (· == a) cs with
      | nil => exact absurd hs (split_ne_nil _ _)
      | cons piece pieces =>
        rw [hs] at ih
        exact split_append_of_forall hfree ih

theorem dropLast?_utf8Encode (ha : a.toNat < 128) (cs : List Char) :
    dropLast? (UInt8.ofNat a.toNat) (cs.flatMap String.utf8EncodeChar) =
      (dropLast? a cs).flatMap String.utf8EncodeChar := by
  induction cs using List.reverseRecOn with
  | nil => rfl
  | append_singleton cs c =>
    have hlast (bs : List UInt8) :
        (bs ++ String.utf8EncodeChar c).getLast? = (String.utf8EncodeChar c).getLast? := by
      rw [List.getLast?_append, Option.or_of_isSome]
      simp [String.utf8EncodeChar_ne_nil]
    rw [List.flatMap_append, List.flatMap_singleton, dropLast?, dropLast?, hlast,
      List.getLast?_concat]
    by_cases hc : c = a
    · subst hc
      rw [utf8EncodeChar_of_ascii ha, if_pos (by simp), if_pos (by simp), List.dropLast_concat,
        List.dropLast_concat]
    · rw [if_neg, if_neg (by simpa using hc), List.flatMap_append, List.flatMap_singleton]
      intro hlast
      exact hc ((mem_utf8EncodeChar ha).mp (List.mem_of_getLast? (eq_of_beq hlast)))

theorem ofPieces_utf8Encode (ha : a.toNat < 128) (pieces : List (List Char)) :
    ofPieces (UInt8.ofNat a.toNat) (pieces.map (·.flatMap String.utf8EncodeChar)) =
      (ofPieces a pieces).map (·.flatMap String.utf8EncodeChar) := by
  induction pieces with
  | nil => rfl
  | cons piece pieces ih =>
    cases pieces with
    | nil =>
      cases piece with
      | nil => rfl
      | cons c cs =>
        simp [ofPieces, String.utf8EncodeChar_ne_nil]
    | cons next pieces =>
      rw [ofPieces_cons a piece (List.cons_ne_nil _ _), List.map_cons, List.map_cons, List.map_cons,
        ofPieces_cons _ _ (List.cons_ne_nil _ _), dropLast?_utf8Encode ha, ← List.map_cons, ih]

theorem fromUTF8?_utf8Encode (cs : List Char) :
    String.fromUTF8? ⟨(cs.flatMap String.utf8EncodeChar).toArray⟩ = some (String.ofList cs) := by
  have hbytes : (⟨(cs.flatMap String.utf8EncodeChar).toArray⟩ : ByteArray) = cs.utf8Encode := by
    ext1
    exact List.data_toByteArray.symm
  rw [hbytes, String.fromUTF8?, dif_pos ByteArray.isValidUTF8_utf8Encode]
  rfl

theorem linesOfBytes_toUTF8 (s : String) : linesOfBytes s.toUTF8.data.toList = lines s := by
  have hbytes : s.toUTF8.data.toList = s.toList.flatMap String.utf8EncodeChar := by
    rw [String.toUTF8_eq_toByteArray, ← String.utf8Encode_toList, List.utf8Encode,
      List.data_toByteArray]
  rw [linesOfBytes, hbytes, show (10 : UInt8) = UInt8.ofNat '\n'.toNat from rfl,
    split_utf8Encode (by decide), show (13 : UInt8) = UInt8.ofNat '\r'.toNat from rfl,
    ofPieces_utf8Encode (by decide), List.map_map, lines]
  exact List.map_congr_left fun cs _ => fromUTF8?_utf8Encode cs

end

-- ---------------------------------------------------------------------------
-- Integers
-- ---------------------------------------------------------------------------

section

variable {n bits : Nat} {i : Int}

theorem digits?_toDigits (n : Nat) : digits? (Nat.toDigits 10 n) = some n := by
  have hdigits : (Nat.toDigits 10 n).all Char.isDigit = true :=
    List.all_eq_true.mpr fun c hc => Nat.isDigit_of_mem_toDigits (by decide) (by decide) hc
  rw [digits?, if_neg (by simp [hdigits, Nat.toDigits_ne_nil]), ← Nat.ofDigitChars_eq_foldl,
    Nat.ofDigitChars_ten_toDigits]

theorem ne_of_mem_toDigits {c : Char} (h : c ∈ Nat.toDigits 10 n) {d : Char}
    (hd : d.isDigit = false) : c ≠ d := by
  rintro rfl
  exact Bool.false_ne_true (hd.symm.trans (Nat.isDigit_of_mem_toDigits (by decide) (by decide) h))

theorem unsigned?_toString (h : n < 1 <<< bits) : unsigned? bits (toString n) = some n := by
  rw [unsigned?, show (toString n).toList = _ from Nat.toList_repr]
  split
  · next heq => exact absurd rfl (ne_of_mem_toDigits (heq ▸ List.mem_cons_self) (d := '+') rfl)
  · rw [digits?_toDigits]
    exact congrArg (Option.bind · fun _ => some n) (if_pos h)

theorem isBlank_of_isDigit {c : Char} (h : c.isDigit = true) : isBlank c = false := by
  obtain ⟨hlow, hhigh⟩ : 48 ≤ c.toNat ∧ c.toNat ≤ 57 := Char.isDigit_iff_toNat.mp h
  simp only [isBlank, blankRanges, List.any_cons, List.any_nil, Bool.or_false, Bool.or_eq_false_iff,
    Bool.and_eq_false_iff, decide_eq_false_iff_not]
  omega

theorem toList_toString_of_nonneg (h : 0 ≤ i) :
    (toString i).toList = Nat.toDigits 10 i.toNat := by
  rw [show toString i = _ from Int.repr_eq_if, if_pos h, Nat.toList_repr]

theorem toList_toString_of_neg (h : i < 0) :
    (toString i).toList = '-' :: Nat.toDigits 10 (-i).toNat := by
  rw [show toString i = _ from Int.repr_eq_if, if_neg (by omega), String.toList_append,
    Nat.toList_repr]
  rfl

theorem isDigit_of_mem_toString {c : Char} (h : c ∈ (toString i).toList) :
    c = '-' ∨ c.isDigit = true := by
  rcases Int.lt_or_le i 0 with hneg | hpos
  · rw [toList_toString_of_neg hneg] at h
    exact (List.mem_cons.mp h).imp_right (Nat.isDigit_of_mem_toDigits (by decide) (by decide))
  · rw [toList_toString_of_nonneg hpos] at h
    exact .inr (Nat.isDigit_of_mem_toDigits (by decide) (by decide) h)

theorem isWord_toString (i : Int) : IsWord (toString i).toList where
  ne_nil := by
    rcases Int.lt_or_le i 0 with hneg | hpos
    · rw [toList_toString_of_neg hneg]
      exact List.cons_ne_nil _ _
    · rw [toList_toString_of_nonneg hpos]
      exact Nat.toDigits_ne_nil
  isBlank c hc := by
    rcases isDigit_of_mem_toString hc with rfl | hdigit
    · rfl
    · exact isBlank_of_isDigit hdigit

def SignedIn (bits : Nat) (i : Int) : Prop :=
  -((1 <<< (bits - 1) : Nat) : Int) ≤ i ∧ i < (1 <<< (bits - 1) : Nat)
deriving Decidable

theorem signed?_toString (h : SignedIn bits i) : signed? bits (toString i) = some i := by
  have hread {j : Int} (hj : j = i) : (do
      guard (-((1 <<< (bits - 1) : Nat) : Int) ≤ j ∧ j < (1 <<< (bits - 1) : Nat))
      return j) = some i := by
    subst hj
    exact congrArg (Option.bind · fun _ => some j) (if_pos h)
  rw [signed?]
  rcases Int.lt_or_le i 0 with hneg | hpos
  · rw [toList_toString_of_neg hneg]
    split
    · next cs heq =>
      obtain ⟨-, rfl⟩ := List.cons.inj heq
      rw [digits?_toDigits]
      exact hread (show -((-i).toNat : Int) = i by omega)
    · next heq => exact absurd (List.cons.inj heq).1 (by decide)
    · next hne _ => exact absurd rfl (hne _)
  · rw [toList_toString_of_nonneg hpos]
    split
    · next heq => exact absurd rfl (ne_of_mem_toDigits (heq ▸ List.mem_cons_self) (d := '-') rfl)
    · next heq => exact absurd rfl (ne_of_mem_toDigits (heq ▸ List.mem_cons_self) (d := '+') rfl)
    · rw [digits?_toDigits]
      exact hread (Int.toNat_of_nonneg hpos)

end

end ShaDiff.Text
