import Mathlib.Algebra.Group.Nat.Defs
import Mathlib.Data.List.Basic
import Mathlib.Tactic.Common

/-!
# Values, entries and their protobuf messages

`store.rs` keeps typed values; the log and the tables hold their protobuf form. The messages and
their enumeration are the ones `store.proto` and `wal.proto` declare. The encoder and the decoder
of these messages are the `prost` crate, which is a parameter here (`Prost`); what the code relies
on is that decoding undoes encoding (`Prost.Lawful`).
-/

namespace FerrumDB

abbrev Bytes := List UInt8

/-- The error type of the core crate. -/
inductive AppError where
  | ioError (msg : String)
  | decodeError (msg : String)
  | keyNotFound (msg : String)
  | internalError (msg : String)
  deriving DecidableEq, Repr

/-! ## Values -/

/-- A stored value. A float is its 64 bits: the code only moves it, never computes with it. -/
inductive Value where
  | integer (n : Int32)
  | float (bits : UInt64)
  | text (s : String)
  | boolean (b : Bool)
  | bytes (b : Bytes)
  deriving DecidableEq

/-- What a key resolves to: a present value, or a deletion marker. -/
inductive Entry where
  | value (v : Value)
  | tombstone
  deriving DecidableEq

/-- The value of an entry, `none` for a tombstone. -/
def Entry.live : Entry → Option Value
  | .value v => some v
  | .tombstone => none

/-! ## Messages -/

/-- The `oneof` of `ValueMessage`. -/
inductive Kind where
  | integer (n : Int32)
  | float (bits : UInt64)
  | text (s : String)
  | boolean (b : Bool)
  | data (b : Bytes)
  deriving DecidableEq

structure ValueMessage where
  kind : Option Kind
  deriving DecidableEq

inductive Operation where
  | put
  | delete
  | commit
  deriving DecidableEq, Repr

/-- The wire number of an operation. -/
def Operation.toInt32 : Operation → Int32
  | .put => 0
  | .delete => 1
  | .commit => 2

/-- A log record as generated from `wal.proto`: an enumeration field is a plain `i32`. -/
structure WalEntry where
  operation : Int32
  key : Bytes
  value : Option ValueMessage
  sequence : UInt64
  timestamp : UInt64
  deriving DecidableEq

/-- The generated accessor: an unknown number reads as the default, `PUT`. -/
def WalEntry.op (e : WalEntry) : Operation :=
  if e.operation = 1 then .delete else if e.operation = 2 then .commit else .put

/-- The protobuf codec of the two messages. -/
structure Prost where
  encodeValue : ValueMessage → Bytes
  decodeValue : Bytes → Except String ValueMessage
  encodeEntry : WalEntry → Bytes
  decodeEntry : Bytes → Except String WalEntry

/-- The length limit of a `Vec<u8>`, `isize::MAX`. -/
def maxVecLen : ℕ := 2 ^ 63 - 1

/-- Decoding undoes encoding, for a message whose encoding fits a `Vec<u8>`. -/
structure Prost.Lawful (p : Prost) : Prop where
  value : ∀ m, (p.encodeValue m).length ≤ maxVecLen → p.decodeValue (p.encodeValue m) = .ok m
  entry : ∀ e, (p.encodeEntry e).length ≤ maxVecLen → p.decodeEntry (p.encodeEntry e) = .ok e

/-! ## Conversions -/

def Value.toProto : Value → ValueMessage
  | .integer n => ⟨some (.integer n)⟩
  | .float n => ⟨some (.float n)⟩
  | .text s => ⟨some (.text s)⟩
  | .boolean b => ⟨some (.boolean b)⟩
  | .bytes b => ⟨some (.data b)⟩

def Value.fromProto (msg : ValueMessage) : Except AppError Value :=
  match msg.kind with
  | some (.integer n) => .ok (.integer n)
  | some (.float n) => .ok (.float n)
  | some (.text s) => .ok (.text s)
  | some (.boolean b) => .ok (.boolean b)
  | some (.data b) => .ok (.bytes b)
  | none => .error (.decodeError "value message has no kind set")

@[simp] theorem Value.fromProto_toProto (v : Value) : Value.fromProto v.toProto = .ok v := by
  cases v <;> rfl

@[simp] theorem Entry.live_value (v : Value) : (Entry.value v).live = some v := rfl

@[simp] theorem Entry.live_tombstone : Entry.tombstone.live = none := rfl

end FerrumDB
