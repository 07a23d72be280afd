import FerrumDB.Store

/-!
# The names of table files

A table's id can be read back from its file name (`sstableIdFromPath_sstName`), so different ids
have different files; the log and the lock are not table files.
-/

namespace FerrumDB

theorem toList_sstName (id : ℕ) :
    (sstName id).toList = "sstable_".toList ++ (Nat.toDigits 10 id ++ ".sst".toList) := by
  simp [sstName, toString]

theorem parseU64_toDigits {id : ℕ} (h : id < 2 ^ 64) : parseU64 (Nat.toDigits 10 id) = some id := by
  have hne := Nat.toDigits_ne_nil (n := id) (b := 10)
  have hdigit : ∀ c ∈ Nat.toDigits 10 id, c.isDigit = true := fun c hc =>
    Nat.isDigit_of_mem_toDigits (by decide) (by decide) hc
  have hdigits : stripPlus (Nat.toDigits 10 id) = Nat.toDigits 10 id := by
    unfold stripPlus
    split
    · next rest heq =>
      have hc := hdigit '+' (by rw [heq]; exact List.mem_cons_self ..)
      exact absurd hc (by decide)
    · rfl
  have hall : (Nat.toDigits 10 id).all Char.isDigit = true := List.all_eq_true.2 hdigit
  unfold parseU64
  dsimp only
  rw [hdigits, if_neg (by simp [hne, hall]), Nat.ofDigitChars_ten_toDigits, if_pos h]

/-- **File names.** The id of a table is read back from its file name. -/
theorem sstableIdFromPath_sstName {id : ℕ} (h : id < 2 ^ 64) :
    sstableIdFromPath (sstName id) = some id := by
  unfold sstableIdFromPath stripPrefix stripSuffix
  rw [toList_sstName, if_pos (List.prefix_append _ _), List.drop_left, Option.bind_some,
    if_pos (List.suffix_append _ _), Option.bind_some, List.length_append, Nat.add_sub_cancel,
    List.take_left, parseU64_toDigits h]

theorem sstName_injective {id id' : ℕ} (h : sstName id = sstName id') : id = id' := by
  have hl := congrArg String.toList h
  rw [toList_sstName, toList_sstName] at hl
  have hd := List.append_cancel_right (List.append_cancel_left hl)
  rw [← Nat.ofDigitChars_ten_toDigits (n := id), hd, Nat.ofDigitChars_ten_toDigits]

/-- The name is none of a table file. -/
def OffTableNames (name : FileName) : Prop := stripPrefix "sstable_".toList name.toList = none

theorem offTableNames_walName : OffTableNames walName := by unfold OffTableNames; decide

theorem offTableNames_lock : OffTableNames "LOCK" := by unfold OffTableNames; decide

theorem OffTableNames.sstableIdFromPath {name : FileName} (h : OffTableNames name) :
    sstableIdFromPath name = none := by
  unfold FerrumDB.sstableIdFromPath
  rw [h]
  rfl

theorem OffTableNames.sstName_ne {name : FileName} (h : OffTableNames name) (id : ℕ) : sstName id ≠ name := by
  rintro rfl
  unfold OffTableNames stripPrefix at h
  rw [toList_sstName, if_pos (List.prefix_append _ _)] at h
  cases h

theorem sstableIdFromPath_walName : sstableIdFromPath walName = none :=
  offTableNames_walName.sstableIdFromPath

theorem sstableIdFromPath_lock : sstableIdFromPath "LOCK" = none := offTableNames_lock.sstableIdFromPath

theorem sstName_ne_walName (id : ℕ) : sstName id ≠ walName := offTableNames_walName.sstName_ne id

theorem sstName_ne_lock (id : ℕ) : sstName id ≠ "LOCK" := offTableNames_lock.sstName_ne id

end FerrumDB
