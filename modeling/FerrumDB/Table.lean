import FerrumDB.Store

/-!
# Tables of bytes

The public API of the `ferrumdb` crate: `error.rs`, `table.rs` and `txn.rs`. A table is a handle on a
store, and only puts `Value::Bytes` into it; a value of another kind that comes back is an
`Error::UnexpectedValue`.
-/

namespace FerrumDB

variable {α : Type}

/-! ## Errors -/

/-- Errors returned by the public API. -/
inductive Error where
  | io (msg : String)
  | invalidTableName (name : String)
  | tableExists (name : String)
  | tableNotFound (name : String)
  | unexpectedValue
  | internal (msg : String)
  deriving DecidableEq, Repr

/-- `From<AppError> for Error`. -/
def Error.fromApp : AppError → Error
  | .ioError m => .io m
  | .decodeError m => .internal m
  | .internalError m => .internal m
  | .keyNotFound m => .internal m

/-- Why a call of the API stopped. -/
inductive Failure where
  | err (e : Error)
  | panic
  | crash
  deriving DecidableEq, Repr

def Failure.ofStop : Stop → Failure
  | .err e => .err (.fromApp e)
  | .panic => .panic
  | .crash => .crash

/-- A method of the API, on the store behind its handle. -/
abbrev Api (α : Type) := EStateM Failure (Mem Store) α

/-- A call into the core crate, its error converted by `?`. -/
def core (m : Prog Store α) : Api α := fun x =>
  match m x with
  | .ok a y => .ok a y
  | .error e y => .error (.ofStop e) y

/-- A value read through the API. -/
def asBytes : Option Value → Except Error (Option Bytes)
  | some (.bytes bytes) => .ok (some bytes)
  | some _ => .error .unexpectedValue
  | none => .ok none

/-- A result of the API. -/
def ofResult : Except Error α → Api α
  | .ok a => pure a
  | .error e => throw (.err e)

/-! ## Interactive transactions -/

structure Txn where
  inner : Transaction

/-- Buffer a put. -/
def Txn.put (tx : Txn) (key value : Bytes) : Txn := ⟨tx.inner.setValue key (.bytes value)⟩

/-- Buffer a delete. -/
def Txn.delete (tx : Txn) (key : Bytes) : Txn := ⟨tx.inner.deleteValue key⟩

/-- Read within the transaction, seeing its own buffered writes first. -/
def Txn.get (p : Prost) (tx : Txn) (key : Bytes) : Api (Option Bytes) := do
  ofResult (asBytes (← core (tx.inner.getValue p key)))

def Txn.commit (p : Prost) (tx : Txn) : Api Unit := core (tx.inner.commit p)

def Txn.rollback (tx : Txn) : Api Unit := core tx.inner.rollback

/-! ## Tables -/

def Table.put (p : Prost) (key value : Bytes) : Api Unit := do
  let _ ← core (Store.setValue p key (.bytes value))

def Table.get (p : Prost) (key : Bytes) : Api (Option Bytes) := do
  ofResult (asBytes (← core (Store.getValue p key)))

def Table.contains (p : Prost) (key : Bytes) : Api Bool := return (← Table.get p key).isSome

def Table.delete (p : Prost) (key : Bytes) : Api Unit := do
  let _ ← core (Store.deleteValue p key)

/-- Write many pairs in one transaction. -/
def Table.putBatch (p : Prost) (entries : List (Bytes × Bytes)) : Api Unit :=
  core (Transaction.commit p
    (entries.foldl (fun tx e => tx.setValue e.1 (.bytes e.2)) Store.beginTransaction))

/-- Look up many keys, in this order. -/
def Table.getBatch (p : Prost) : List Bytes → Api (List (Option Bytes))
  | [] => return []
  | key :: keys => do
    let value ← Table.get p key
    let rest ← Table.getBatch p keys
    return value :: rest

def Table.transaction : Txn := ⟨Store.beginTransaction⟩

/-- The pairs of a scan, after those of `out`. -/
def bytesPairs : List (Bytes × Value) → List (Bytes × Bytes) → Except Error (List (Bytes × Bytes))
  | [], out => .ok out
  | (key, .bytes bytes) :: pairs, out => bytesPairs pairs (out ++ [(key, bytes)])
  | _ :: _, _ => .error .unexpectedValue

def Table.rangeBounds (p : Prost) (lo hi : Bound) : Api (List (Bytes × Bytes)) := do
  ofResult (bytesPairs (← core (Store.scanRange p lo hi)) [])

/-- Every pair, in key order. -/
def Table.scan (p : Prost) : Api (List (Bytes × Bytes)) := Table.rangeBounds p .unbounded .unbounded

/-- The pairs of the half-open key range from `start` to `stop`. -/
def Table.range (p : Prost) (start stop : Bytes) : Api (List (Bytes × Bytes)) :=
  Table.rangeBounds p (.included start) (.excluded stop)

/-- The loop of `prefix_upper_bound`, over the bytes from the last one on. -/
def bumpLast : List UInt8 → Option (List UInt8)
  | [] => none
  | last :: rest => if last < 0xFF then some ((last + 1) :: rest) else bumpLast rest

/-- The smallest key greater than every key that begins with `start`, if there is one. -/
def prefixUpperBound (start : Bytes) : Option Bytes := (bumpLast start.reverse).map List.reverse

/-- Every pair whose key begins with `start`. -/
def Table.scanPrefix (p : Prost) (start : Bytes) : Api (List (Bytes × Bytes)) :=
  match prefixUpperBound start with
  | some u => Table.rangeBounds p (.included start) (.excluded u)
  | none => Table.rangeBounds p (.included start) .unbounded

example : prefixUpperBound [1, 254, 255] = some [1, 255] := by decide

example : prefixUpperBound [255, 255] = none := by decide

/-! ## Calls -/

/-- A transaction after puts and deletes, in order. -/
def Txn.after (calls : List (Bytes × Option Bytes)) : Txn :=
  calls.foldl (fun tx e =>
    match e.2 with
    | some value => tx.put e.1 value
    | none => tx.delete e.1) Table.transaction

/-- A call on a table, or a transaction on it: one that is committed, one that is rolled back, or a read
in one that is open. -/
inductive Call where
  | put (key value : Bytes)
  | get (key : Bytes)
  | contains (key : Bytes)
  | delete (key : Bytes)
  | putBatch (entries : List (Bytes × Bytes))
  | getBatch (keys : List Bytes)
  | commit (calls : List (Bytes × Option Bytes))
  | rollback (calls : List (Bytes × Option Bytes))
  | txnGet (calls : List (Bytes × Option Bytes)) (key : Bytes)
  | scan
  | range (start stop : Bytes)
  | scanPrefix (start : Bytes)

def Call.run (p : Prost) : Call → Api Unit
  | .put key value => Table.put p key value
  | .get key => discard (Table.get p key)
  | .contains key => discard (Table.contains p key)
  | .delete key => Table.delete p key
  | .putBatch entries => Table.putBatch p entries
  | .getBatch keys => discard (Table.getBatch p keys)
  | .commit calls => (Txn.after calls).commit p
  | .rollback calls => (Txn.after calls).rollback
  | .txnGet calls key => discard ((Txn.after calls).get p key)
  | .scan => discard (Table.scan p)
  | .range start stop => discard (Table.range p start stop)
  | .scanPrefix start => discard (Table.scanPrefix p start)

end FerrumDB
