import FerrumDB.Lib.ByteCodec
import Mathlib.Tactic.NormNum

/-!
# The protobuf wire format

A message on the wire is a sequence of fields, each a number and a payload: a varint, eight or four
little-endian bytes, or a length-delimited byte string. `decodeFields_encodeFields` says that
reading the fields of a message gives back the fields that were written.
-/

namespace Protobuf

open ByteCodec

/-! ## Varints -/

/-- Base-128 little-endian digits with continuation bits, at most `fuel + 1` of them. -/
def encodeVarint : ℕ → ℕ → List UInt8
  | 0, n => [UInt8.ofNat n]
  | fuel + 1, n =>
    if n < 128 then [UInt8.ofNat n]
    else UInt8.ofNat (n % 128 + 128) :: encodeVarint fuel (n / 128)

def decodeVarint : ℕ → List UInt8 → Option (ℕ × List UInt8)
  | 0, _ => none
  | _ + 1, [] => none
  | fuel + 1, b :: bs =>
    if b.toNat < 128 then some (b.toNat, bs)
    else (decodeVarint fuel bs).map fun r => (b.toNat - 128 + 128 * r.1, r.2)

def varint (n : ℕ) : List UInt8 := encodeVarint 9 n

/-- A varint has at most ten bytes and fits 64 bits. -/
def readVarint (bs : List UInt8) : Option (ℕ × List UInt8) :=
  (decodeVarint 10 bs).bind fun r => if r.1 < 2 ^ 64 then some r else none

theorem decodeVarint_encodeVarint (fuel n : ℕ) (rest : List UInt8) (h : n < 128 ^ (fuel + 1)) :
    decodeVarint (fuel + 1) (encodeVarint fuel n ++ rest) = some (n, rest) := by
  induction fuel generalizing n with
  | zero =>
    have hn : n < 128 := by simpa using h
    have hb : (UInt8.ofNat n).toNat = n := by simp; omega
    simp [encodeVarint, decodeVarint, hb, hn]
  | succ fuel ih =>
    unfold encodeVarint
    by_cases hn : n < 128
    · have hb : (UInt8.ofNat n).toNat = n := by simp; omega
      rw [if_pos hn]
      simp [decodeVarint, hb, hn]
    · have hb : (UInt8.ofNat (n % 128 + 128)).toNat = n % 128 + 128 := by simp; omega
      have hdiv : n / 128 < 128 ^ (fuel + 1) := by
        rw [Nat.div_lt_iff_lt_mul (by decide), ← pow_succ]; exact h
      rw [if_neg hn, List.cons_append, decodeVarint, hb, if_neg (by omega), ih _ hdiv]
      simp only [Option.map_some, Option.some.injEq, Prod.mk.injEq, and_true]
      omega

theorem readVarint_varint {n : ℕ} (h : n < 2 ^ 64) (rest : List UInt8) :
    readVarint (varint n ++ rest) = some (n, rest) := by
  have h10 : n < 128 ^ (9 + 1) := h.trans (by norm_num)
  unfold readVarint varint
  rw [decodeVarint_encodeVarint 9 n rest h10, Option.bind_some, if_pos h]

theorem length_encodeVarint_le (fuel n : ℕ) : (encodeVarint fuel n).length ≤ fuel + 1 := by
  induction fuel generalizing n with
  | zero => exact Nat.le_refl 1
  | succ fuel ih =>
    unfold encodeVarint
    split
    · exact Nat.succ_le_succ (Nat.zero_le _)
    · exact Nat.succ_le_succ (ih _)

theorem length_varint_le (n : ℕ) : (varint n).length ≤ 10 := length_encodeVarint_le 9 n

theorem varint_ne_nil (n : ℕ) : varint n ≠ [] := by
  unfold varint encodeVarint; split <;> simp

/-! ## Fields -/

inductive Payload where
  | varint (n : ℕ)
  | fixed64 (n : ℕ)
  | bytes (bs : List UInt8)
  | fixed32 (n : ℕ)
  deriving DecidableEq, Repr

/-- A field: its number and its payload. -/
structure Field where
  number : ℕ
  payload : Payload
  deriving DecidableEq, Repr

def Payload.wireType : Payload → ℕ
  | .varint _ => 0
  | .fixed64 _ => 1
  | .bytes _ => 2
  | .fixed32 _ => 5

/-- The `w` little-endian bytes of `n`. -/
def leBytes (w n : ℕ) : List UInt8 := (beBytes w n).reverse

def encodePayload : Payload → List UInt8
  | .varint n => varint n
  | .fixed64 n => leBytes 8 n
  | .bytes bs => varint bs.length ++ bs
  | .fixed32 n => leBytes 4 n

def encodeField (f : Field) : List UInt8 :=
  varint (f.number * 8 + f.payload.wireType) ++ encodePayload f.payload

def encodeFields (fs : List Field) : List UInt8 := fs.flatMap encodeField

/-- Split off `n` bytes. -/
def splitBytes (n : ℕ) (bs : List UInt8) : Option (List UInt8 × List UInt8) :=
  if n ≤ bs.length then some (bs.take n, bs.drop n) else none

def decodePayload (wireType : ℕ) (bs : List UInt8) : Option (Payload × List UInt8) :=
  match wireType with
  | 0 => (readVarint bs).map fun r => (.varint r.1, r.2)
  | 1 => (splitBytes 8 bs).map fun r => (.fixed64 (ofBe r.1.reverse), r.2)
  | 2 => (readVarint bs).bind fun r => (splitBytes r.1 r.2).map fun q => (.bytes q.1, q.2)
  | 5 => (splitBytes 4 bs).map fun r => (.fixed32 (ofBe r.1.reverse), r.2)
  | _ => none

/-- A key fits 32 bits and its field number is not zero. -/
def decodeField (bs : List UInt8) : Option (Field × List UInt8) :=
  (readVarint bs).bind fun r =>
    if r.1 < 2 ^ 32 ∧ 8 ≤ r.1 then
      (decodePayload (r.1 % 8) r.2).map fun q => (⟨r.1 / 8, q.1⟩, q.2)
    else none

/-- All fields of a message; every field takes at least one byte. -/
def decodeLoop : ℕ → List UInt8 → Option (List Field)
  | _, [] => some []
  | 0, _ :: _ => none
  | fuel + 1, b :: bs =>
    (decodeField (b :: bs)).bind fun r => (decodeLoop fuel r.2).map (r.1 :: ·)

def decodeFields (bs : List UInt8) : Option (List Field) := decodeLoop bs.length bs

/-- What the wire can carry. -/
def Payload.Fits : Payload → Prop
  | .varint n => n < 2 ^ 64
  | .fixed64 n => n < 2 ^ 64
  | .bytes bs => bs.length < 2 ^ 64
  | .fixed32 n => n < 2 ^ 32

structure Field.Fits (f : Field) : Prop where
  pos : 0 < f.number
  lt : f.number < 2 ^ 29
  payload : f.payload.Fits

theorem splitBytes_append (bs rest : List UInt8) :
    splitBytes bs.length (bs ++ rest) = some (bs, rest) := by
  simp [splitBytes]

theorem splitBytes_le {w n : ℕ} (rest : List UInt8) :
    splitBytes w (leBytes w n ++ rest) = some (leBytes w n, rest) := by
  have h := splitBytes_append (leBytes w n) rest
  rwa [leBytes, List.length_reverse, length_beBytes] at h

theorem ofBe_leBytes {w n : ℕ} (h : n < 256 ^ w) : ofBe (leBytes w n).reverse = n := by
  rw [leBytes, List.reverse_reverse, ofBe_beBytes_of_lt h]

theorem decodePayload_encodePayload {v : Payload} (h : v.Fits) (rest : List UInt8) :
    decodePayload v.wireType (encodePayload v ++ rest) = some (v, rest) := by
  cases v with
  | varint n => simp [decodePayload, Payload.wireType, encodePayload, readVarint_varint h]
  | fixed64 n =>
    have hn : n < 256 ^ 8 := lt_of_lt_of_eq h (by norm_num)
    simp only [decodePayload, Payload.wireType, encodePayload, splitBytes_le, Option.map_some,
      ofBe_leBytes hn]
  | bytes bs =>
    simp only [decodePayload, Payload.wireType, encodePayload, List.append_assoc,
      readVarint_varint h, Option.bind_some, splitBytes_append, Option.map_some]
  | fixed32 n =>
    have hn : n < 256 ^ 4 := lt_of_lt_of_eq h (by norm_num)
    simp only [decodePayload, Payload.wireType, encodePayload, splitBytes_le, Option.map_some,
      ofBe_leBytes hn]

theorem wireType_lt (v : Payload) : v.wireType < 8 := by cases v <;> simp [Payload.wireType]

theorem decodeField_encodeField {f : Field} (h : f.Fits) (rest : List UInt8) :
    decodeField (encodeField f ++ rest) = some (f, rest) := by
  have hw := wireType_lt f.payload
  have hpos := h.pos
  have hlt := h.lt
  have hkey : f.number * 8 + f.payload.wireType < 2 ^ 32 := by omega
  have hmod : (f.number * 8 + f.payload.wireType) % 8 = f.payload.wireType := by omega
  have hdiv : (f.number * 8 + f.payload.wireType) / 8 = f.number := by omega
  unfold decodeField encodeField
  rw [List.append_assoc, readVarint_varint (hkey.trans (by norm_num)), Option.bind_some,
    if_pos ⟨hkey, by omega⟩, hmod, decodePayload_encodePayload h.payload, hdiv]
  rfl

theorem length_encodeField_varint_le (k n : ℕ) : (encodeField ⟨k, .varint n⟩).length ≤ 20 := by
  have htag := length_varint_le (k * 8 + Payload.wireType (.varint n))
  have hn := length_varint_le n
  simp only [encodeField, encodePayload, List.length_append]
  omega

theorem length_encodeField_bytes_le (k : ℕ) (bs : List UInt8) :
    (encodeField ⟨k, .bytes bs⟩).length ≤ bs.length + 20 := by
  have htag := length_varint_le (k * 8 + Payload.wireType (.bytes bs))
  have hn := length_varint_le bs.length
  simp only [encodeField, encodePayload, List.length_append]
  omega

theorem encodeField_length_pos (f : Field) : 0 < (encodeField f).length := by
  have h := List.length_pos_iff.2 (varint_ne_nil (f.number * 8 + f.payload.wireType))
  unfold encodeField
  rw [List.length_append]; omega

/-- A byte string is no longer than the message it is part of. -/
theorem bytes_length_le {fs : List Field} {n : ℕ} {bs : List UInt8} (h : ⟨n, .bytes bs⟩ ∈ fs) :
    bs.length ≤ (encodeFields fs).length := by
  have hsub := (List.sublist_flatten_of_mem (List.mem_map_of_mem (f := encodeField) h)).length_le
  rw [← List.flatMap_def] at hsub
  refine le_trans ?_ hsub
  unfold encodeField encodePayload
  simp only [List.length_append]; omega

theorem decodeLoop_encodeFields {fs : List Field} (h : ∀ f ∈ fs, f.Fits) :
    ∀ fuel, (encodeFields fs).length ≤ fuel → decodeLoop fuel (encodeFields fs) = some fs := by
  induction fs with
  | nil => intro fuel _; cases fuel <;> rfl
  | cons f fs ih =>
    intro fuel hfuel
    have hpos := encodeField_length_pos f
    have hcons : encodeFields (f :: fs) = encodeField f ++ encodeFields fs := rfl
    have hlen : (encodeFields (f :: fs)).length = (encodeField f).length + (encodeFields fs).length := by
      rw [hcons, List.length_append]
    have hdec := decodeField_encodeField (h f (List.mem_cons_self ..)) (encodeFields fs)
    rw [← hcons] at hdec
    cases hb : encodeFields (f :: fs) with
    | nil => rw [hb] at hlen; simp at hlen; omega
    | cons b bs =>
      rw [hb] at hdec hfuel hlen
      cases fuel with
      | zero => simp at hfuel
      | succ fuel =>
        rw [decodeLoop, hdec, Option.bind_some,
          ih (fun g hg => h g (List.mem_cons_of_mem _ hg)) fuel (by omega)]
        rfl

/-- **Round trip.** A message's fields are read back as written. -/
theorem decodeFields_encodeFields {fs : List Field} (h : ∀ f ∈ fs, f.Fits) :
    decodeFields (encodeFields fs) = some fs :=
  decodeLoop_encodeFields h _ le_rfl

end Protobuf
