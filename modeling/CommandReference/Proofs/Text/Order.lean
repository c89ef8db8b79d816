import CommandReference.Text.Utf8

namespace CommandReference.Utf8

/-! Texts are in the order of their bytes. A character with a greater code has a greater
leading byte, or the same one and greater digits after it. -/

theorem cons_ofNat_lt_cons_ofNat_iff {first second : Nat} (firstBound : first < 256)
    (secondBound : second < 256) {rest others : Bytes} :
    UInt8.ofNat first :: rest < UInt8.ofNat second :: others ↔
      first < second ∨ first = second ∧ rest < others := by
  rw [List.cons_lt_cons_iff, UInt8.lt_iff_toNat_lt, ← UInt8.toNat_inj]
  simp only [UInt8.toNat_ofNat', Nat.mod_eq_of_lt firstBound, Nat.mod_eq_of_lt secondBound]

theorem encodeChar_append_lt {first second : Char} (before : first < second)
    (rest others : Bytes) :
    String.utf8EncodeChar first ++ rest < String.utf8EncodeChar second ++ others := by
  have codes : first.val.toNat < second.val.toNat := before
  have bounded (character : Char) : character.val.toNat < 0x110000 := by
    rcases character.valid with low | ⟨_, high⟩
    · exact Nat.lt_trans low (by decide)
    · exact high
  have firstBounded := bounded first
  have secondBounded := bounded second
  unfold String.utf8EncodeChar
  generalize first.val.toNat = code at codes firstBounded
  generalize second.val.toNat = other at codes secondBounded
  have topDigits (value : Nat) (bound : value < 0x110000) :
      value / 262144 % 8 = value / 262144 := by omega
  have firstTop := topDigits code firstBounded
  have secondTop := topDigits other secondBounded
  dsimp only
  -- Both codes decide how many bytes there are; the bytes are compared one by one.
  repeat' split
  all_goals
    simp (disch := omega) only [List.cons_append, cons_ofNat_lt_cons_ofNat_iff]
    omega

theorem append_lt_append_iff (shared : Bytes) {rest others : Bytes} :
    shared ++ rest < shared ++ others ↔ rest < others := by
  induction shared with
  | nil => exact Iff.rfl
  | cons byte shared induction =>
      rw [List.cons_append, List.cons_append, List.cons_lt_cons_iff, induction]
      exact (or_iff_right (UInt8.lt_irrefl byte)).trans (and_iff_right rfl)

theorem flatMap_encodeChar_lt {first second : List Char} (before : first < second) :
    first.flatMap String.utf8EncodeChar < second.flatMap String.utf8EncodeChar := by
  induction first generalizing second with
  | nil =>
      cases second with
      | nil => exact absurd before (List.not_lt_nil _)
      | cons character rest =>
          rw [List.flatMap_cons]
          rcases List.exists_cons_of_ne_nil String.utf8EncodeChar_ne_nil with
            ⟨byte, bytes, encoded⟩
          rw [encoded]
          exact List.nil_lt_cons _ _
  | cons character rest induction =>
      cases second with
      | nil => exact absurd before (List.not_lt_nil _)
      | cons other others =>
          rw [List.flatMap_cons, List.flatMap_cons]
          rcases List.cons_lt_cons_iff.mp before with earlier | ⟨rfl, later⟩
          · exact encodeChar_append_lt earlier _ _
          · exact (append_lt_append_iff _).mpr (induction later)

theorem encode_lt_encode_iff {first second : String} :
    encode first < encode second ↔ first < second := by
  constructor
  · intro before
    refine Std.lt_of_le_of_ne (Std.not_lt.mp fun after => ?_) ?_
    · exact Std.lt_irrefl (Std.lt_trans before (flatMap_encodeChar_lt after))
    · rintro rfl
      exact Std.lt_irrefl before
  · exact fun before => flatMap_encodeChar_lt before

theorem encode_le_encode_iff {first second : String} :
    encode first ≤ encode second ↔ first ≤ second := by
  rw [← Std.not_lt, ← Std.not_lt, encode_lt_encode_iff]

end CommandReference.Utf8

namespace CommandReference

theorem pairwise_mergeSort_text (text : α → String) (items : List α) :
    (items.mergeSort fun left right => decide (text left ≤ text right)).Pairwise
      fun left right => text left ≤ text right := by
  refine (List.pairwise_mergeSort ?_ ?_ items).imp of_decide_eq_true
  · intro first second third before after
    exact decide_eq_true (Std.le_trans (of_decide_eq_true before) (of_decide_eq_true after))
  · intro left right
    rw [← Bool.decide_or]
    exact decide_eq_true Std.le_total

end CommandReference
