import FerrumDB.Value
import FerrumDB.Lib.Protobuf

/-!
# The messages of `store.proto` and `wal.proto` on the wire

A concrete codec for the two messages: fields in the order of their numbers, plain fields left out
at their default, a member of a `oneof` always written, unknown fields skipped, a repeated field
overridden by its last occurrence and a repeated embedded message merged. `wire_lawful` says that it
is a codec the store can rely on.
-/

namespace FerrumDB

open Protobuf

/-! ## Scalars -/

/-- An `int32` is sign-extended to 64 bits before it is written as a varint. -/
def int32Varint (n : Int32) : ℕ := n.toInt64.toUInt64.toNat

def varintInt32 (n : ℕ) : Int32 := (UInt64.ofNat n).toUInt32.toInt32

@[simp] theorem varintInt32_int32Varint (n : Int32) : varintInt32 (int32Varint n) = n := by
  unfold varintInt32 int32Varint
  rw [UInt64.ofNat_toNat]
  apply Int32.toBitVec_inj.1
  show (n.toBitVec.signExtend 64).setWidth 32 = n.toBitVec
  apply BitVec.eq_of_getLsbD_eq
  intro i hi
  rw [BitVec.getLsbD_setWidth, BitVec.getLsbD_signExtend]
  simp [hi, show i < 64 by omega]

theorem int32Varint_lt (n : Int32) : int32Varint n < 2 ^ 64 := n.toInt64.toUInt64.toNat_lt

def utf8Bytes (s : String) : Bytes := s.toUTF8.data.toList

def ofUtf8Bytes (bs : Bytes) : Option String := String.fromUTF8? ⟨bs.toArray⟩

@[simp] theorem ofUtf8Bytes_utf8Bytes (s : String) : ofUtf8Bytes (utf8Bytes s) = some s := by
  have h : (⟨s.toUTF8.data.toList.toArray⟩ : ByteArray) = s.toUTF8 := by simp
  unfold ofUtf8Bytes utf8Bytes
  rw [h]
  unfold String.fromUTF8?
  rw [dif_pos (show s.toUTF8.IsValidUTF8 from s.isValidUTF8)]
  rfl

/-! ## `ValueMessage` -/

def Kind.toField : Kind → Field
  | .integer n => ⟨1, .varint (int32Varint n)⟩
  | .float bits => ⟨2, .fixed64 bits.toNat⟩
  | .text s => ⟨3, .bytes (utf8Bytes s)⟩
  | .boolean b => ⟨4, .varint b.toNat⟩
  | .data b => ⟨5, .bytes b⟩

def wireTypeError : Except String α := .error "invalid wire type"

/-- Merge one field into a `ValueMessage`. -/
def ValueMessage.merge (m : ValueMessage) (f : Field) : Except String ValueMessage :=
  match f.number with
  | 1 => match f.payload with | .varint n => .ok ⟨some (.integer (varintInt32 n))⟩ | _ => wireTypeError
  | 2 => match f.payload with | .fixed64 n => .ok ⟨some (.float (UInt64.ofNat n))⟩ | _ => wireTypeError
  | 3 =>
    match f.payload with
    | .bytes bs =>
      match ofUtf8Bytes bs with
      | some s => .ok ⟨some (.text s)⟩
      | none => .error "invalid string value: data is not UTF-8 encoded"
    | _ => wireTypeError
  | 4 => match f.payload with | .varint n => .ok ⟨some (.boolean (n ≠ 0))⟩ | _ => wireTypeError
  | 5 => match f.payload with | .bytes bs => .ok ⟨some (.data bs)⟩ | _ => wireTypeError
  | _ => .ok m

def decodeFieldsE (bs : Bytes) : Except String (List Field) :=
  match decodeFields bs with
  | some fs => .ok fs
  | none => .error "failed to decode Protobuf message"

def encodeValueMessage (m : ValueMessage) : Bytes := encodeFields (m.kind.toList.map Kind.toField)

/-- Decode a message over the fields already read. -/
def mergeValueMessage (m : ValueMessage) (bs : Bytes) : Except String ValueMessage := do
  (← decodeFieldsE bs).foldlM ValueMessage.merge m

/-! ## `WalEntry` -/

def entryFields (e : WalEntry) : List Field :=
  (if e.operation = 0 then [] else [⟨1, .varint (int32Varint e.operation)⟩]) ++
  (if e.key = [] then [] else [⟨2, .bytes e.key⟩]) ++
  (e.value.toList.map fun m => ⟨3, .bytes (encodeValueMessage m)⟩) ++
  (if e.sequence = 0 then [] else [⟨4, .varint e.sequence.toNat⟩]) ++
  (if e.timestamp = 0 then [] else [⟨5, .varint e.timestamp.toNat⟩])

def WalEntry.empty : WalEntry := ⟨0, [], none, 0, 0⟩

/-- Merge one field into a `WalEntry`. -/
def WalEntry.merge (e : WalEntry) (f : Field) : Except String WalEntry :=
  match f.number with
  | 1 => match f.payload with | .varint n => .ok { e with operation := varintInt32 n } | _ => wireTypeError
  | 2 => match f.payload with | .bytes bs => .ok { e with key := bs } | _ => wireTypeError
  | 3 =>
    match f.payload with
    | .bytes bs => do
      let m ← mergeValueMessage (e.value.getD ⟨none⟩) bs
      return { e with value := some m }
    | _ => wireTypeError
  | 4 => match f.payload with | .varint n => .ok { e with sequence := UInt64.ofNat n } | _ => wireTypeError
  | 5 => match f.payload with | .varint n => .ok { e with timestamp := UInt64.ofNat n } | _ => wireTypeError
  | _ => .ok e

/-- The codec. -/
def Prost.wire : Prost where
  encodeValue := encodeValueMessage
  decodeValue := mergeValueMessage ⟨none⟩
  encodeEntry e := encodeFields (entryFields e)
  decodeEntry bs := do (← decodeFieldsE bs).foldlM WalEntry.merge .empty

/-! ## Round trips -/

theorem decodeFieldsE_encodeFields {fs : List Field} (h : ∀ f ∈ fs, f.Fits) :
    decodeFieldsE (encodeFields fs) = .ok fs := by
  unfold decodeFieldsE; rw [decodeFields_encodeFields h]

theorem Kind.merge_toField (k : Kind) (m : ValueMessage) : m.merge k.toField = .ok ⟨some k⟩ := by
  cases k with
  | integer n => simp [toField, ValueMessage.merge]
  | float bits => simp [toField, ValueMessage.merge]
  | text s => simp [toField, ValueMessage.merge]
  | boolean b => cases b <;> rfl
  | data b => rfl

/-- The longest byte string a field may hold. -/
theorem Kind.fits_toField {k : Kind} (h : (encodeFields [k.toField]).length < 2 ^ 64) :
    k.toField.Fits := by
  have hb {bs : Bytes} (hk : k.toField.payload = .bytes bs) : bs.length < 2 ^ 64 := by
    refine lt_of_le_of_lt (bytes_length_le (n := k.toField.number) ?_) h
    rw [← hk]; exact List.mem_singleton_self _
  cases k with
  | integer n => exact ⟨Nat.one_pos, by simp [toField], int32Varint_lt n⟩
  | float bits => exact ⟨Nat.two_pos, by simp [toField], bits.toNat_lt⟩
  | text s => exact ⟨Nat.succ_pos 2, by simp [toField], hb rfl⟩
  | boolean b => exact ⟨Nat.succ_pos 3, by simp [toField], by cases b <;> simp [toField, Payload.Fits]⟩
  | data b => exact ⟨Nat.succ_pos 4, by simp [toField], hb rfl⟩

theorem mergeValueMessage_encode {m : ValueMessage} (h : (encodeValueMessage m).length < 2 ^ 64) :
    mergeValueMessage ⟨none⟩ (encodeValueMessage m) = .ok m := by
  obtain ⟨kind⟩ := m
  unfold mergeValueMessage
  cases kind with
  | none => rfl
  | some k =>
    have hf := k.fits_toField h
    have hdec : decodeFieldsE (encodeValueMessage ⟨some k⟩) = .ok [k.toField] :=
      decodeFieldsE_encodeFields (by simpa using hf)
    rw [hdec]
    simp only [bind, Except.bind, List.foldlM, k.merge_toField]
    rfl

theorem encodeValueMessage_length_le {e : WalEntry} {m : ValueMessage} (h : e.value = some m) :
    (encodeValueMessage m).length ≤ (encodeFields (entryFields e)).length :=
  bytes_length_le (n := 3) (by simp [entryFields, h])

/-- A part of an entry's fields, present unless the field has its default, sets that field. -/
theorem foldlM_optional {e : WalEntry} (e' : WalEntry) {c : Prop} [Decidable c] {f : Field}
    (hskip : c → e' = e) (hset : e.merge f = .ok e') (fs : List Field) :
    ((if c then [] else [f]) ++ fs).foldlM WalEntry.merge e = fs.foldlM WalEntry.merge e' := by
  by_cases hc : c
  · rw [if_pos hc, hskip hc, List.nil_append]
  · rw [if_neg hc, List.singleton_append, List.foldlM_cons, hset]; rfl

theorem foldlM_value {e : WalEntry} (e' : WalEntry) {o : Option ValueMessage} (hnone : e.value = none)
    (hlen : ∀ m, o = some m → (encodeValueMessage m).length < 2 ^ 64) (hset : e' = { e with value := o })
    (fs : List Field) :
    ((o.toList.map fun m => (⟨3, .bytes (encodeValueMessage m)⟩ : Field)) ++ fs).foldlM WalEntry.merge e =
      fs.foldlM WalEntry.merge e' := by
  subst hset
  cases o with
  | none =>
    have he : { e with value := none } = e := by rw [← hnone]
    rw [he]; rfl
  | some m =>
    have hm : e.merge ⟨3, .bytes (encodeValueMessage m)⟩ = .ok { e with value := some m } := by
      simp only [WalEntry.merge, hnone, Option.getD_none, mergeValueMessage_encode (hlen m rfl)]
      rfl
    simp only [Option.toList_some, List.map_cons, List.map_nil, List.singleton_append,
      List.foldlM_cons, hm]
    rfl

theorem foldlM_entryFields {e : WalEntry} (h : (encodeFields (entryFields e)).length < 2 ^ 64) :
    (entryFields e).foldlM WalEntry.merge .empty = .ok e := by
  obtain ⟨operation, key, value, sequence, timestamp⟩ := e
  have hval : ∀ m, value = some m → (encodeValueMessage m).length < 2 ^ 64 := fun m hm =>
    lt_of_le_of_lt (encodeValueMessage_length_le hm) h
  unfold entryFields
  simp only [List.append_assoc]
  rw [foldlM_optional ⟨operation, [], none, 0, 0⟩ (fun h => by rw [h]; rfl)
      (by simp [WalEntry.merge, WalEntry.empty]),
    foldlM_optional ⟨operation, key, none, 0, 0⟩ (fun h => by rw [h])
      (by simp [WalEntry.merge]),
    foldlM_value ⟨operation, key, value, 0, 0⟩ rfl hval rfl,
    foldlM_optional ⟨operation, key, value, sequence, 0⟩ (fun h => by rw [h])
      (by simp [WalEntry.merge]),
    ← List.append_nil (ite _ _ _),
    foldlM_optional ⟨operation, key, value, sequence, timestamp⟩ (fun h => by rw [h])
      (by simp [WalEntry.merge])]
  rfl

theorem fits_entryFields {e : WalEntry} (h : (encodeFields (entryFields e)).length < 2 ^ 64) :
    ∀ f ∈ entryFields e, f.Fits := by
  intro f hf
  have hb {n : ℕ} {bs : Bytes} : ⟨n, .bytes bs⟩ ∈ entryFields e → bs.length ≤ _ := bytes_length_le
  have hmem := hf
  simp only [entryFields, List.mem_append, List.mem_map, Option.mem_toList, List.mem_ite_nil_left,
    List.mem_singleton] at hmem
  obtain (((⟨-, rfl⟩ | ⟨-, rfl⟩) | ⟨m, -, rfl⟩) | ⟨-, rfl⟩) | ⟨-, rfl⟩ := hmem
  · exact ⟨by simp, by simp, int32Varint_lt _⟩
  · exact ⟨by simp, by simp, lt_of_le_of_lt (hb hf) h⟩
  · exact ⟨by simp, by simp, lt_of_le_of_lt (hb hf) h⟩
  · exact ⟨by simp, by simp, e.sequence.toNat_lt⟩
  · exact ⟨by simp, by simp, e.timestamp.toNat_lt⟩

/-- **The codec is lawful.** Decoding undoes encoding. -/
theorem wire_lawful : Prost.wire.Lawful where
  value m h := mergeValueMessage_encode (lt_of_le_of_lt h (by decide))
  entry e h := by
    have hlen : (encodeFields (entryFields e)).length < 2 ^ 64 := lt_of_le_of_lt h (by decide)
    show (decodeFieldsE (encodeFields (entryFields e)) >>= _) = _
    rw [decodeFieldsE_encodeFields (fits_entryFields hlen)]
    exact foldlM_entryFields hlen

end FerrumDB
