import Mathlib.Data.Int.Basic

/-! # The ring of object ids

`ObjectIdRing` of `object_id_ring.cc`: a table of the objects that were given an id last.  An id is
a serial number, which starts again at `0` after `max_serial_`.  The table holds `none` where the
source has null; an assertion that fails gives `none`.

* `Ring`: the state.
* `getIdForObject`, `getObjectForId`: handing out ids and looking them up. -/

namespace DartVm.ObjectIdRing

/-- `ObjectIdRing::LookupResult`. -/
inductive LookupResult where
  | valid
  | invalid
  | collected
  | expired
deriving DecidableEq, Repr

/-- `ObjectIdRing::IdPolicy`. -/
inductive IdPolicy where
  | allocateId
  | reuseId
deriving DecidableEq, Repr

/-- `kInvalidId`. -/
def kInvalidId : ℤ := -1

/-- **Ring of object ids.** -/
structure Ring (O : Type) where
  table : List (Option O)
  maxSerial : ℤ
  capacity : ℤ
  serialNum : ℤ
  wrapped : Bool
deriving DecidableEq, Repr

variable {O : Type}

/-- `SetCapacityAndMaxSerial`. The maximum serial number is a multiple of the capacity, so that the
index wraps with it. -/
def setCapacityAndMaxSerial (ring : Ring O) (capacity maxSerial : ℤ) : Ring O :=
  { ring with
    capacity := capacity
    table := List.replicate capacity.toNat none
    maxSerial := maxSerial - maxSerial.tmod capacity }

/-- A new ring, with the given capacity and maximum serial number. -/
def newRing (capacity maxSerial : ℤ) : Ring O :=
  setCapacityAndMaxSerial ⟨[], 0, 0, 0, false⟩ capacity maxSerial

/-- `NextSerial`: the serial number starts again at zero when it has reached its maximum. -/
def nextSerial (ring : Ring O) : ℤ × Ring O :=
  let r := ring.serialNum
  if ring.serialNum + 1 ≥ ring.maxSerial then (r, { ring with serialNum := 0, wrapped := true })
  else (r, { ring with serialNum := ring.serialNum + 1 })

/-- `IsValidContiguous`: the id is one of the last `capacity` below the serial number. -/
def isValidContiguous (ring : Ring O) (id : ℤ) : Bool :=
  if id ≥ ring.serialNum then false
  else
    let bottom := if ring.serialNum ≥ ring.capacity then ring.serialNum - ring.capacity else 0
    id ≥ bottom

/-- `IsValidId`, which clears `wrapped_` once the valid serial numbers are contiguous again. -/
def isValidId (ring : Ring O) (id : ℤ) : Bool × Ring O :=
  if id = kInvalidId then (false, ring)
  else if id < 0 then (false, ring)
  else if id ≥ ring.maxSerial then (false, ring)
  else if ring.wrapped then
    if ring.serialNum ≥ ring.capacity then
      (isValidContiguous ring id, { ring with wrapped := false })
    else if id < ring.serialNum then (true, ring)
    else
      let bottom := ring.maxSerial - (ring.capacity - ring.serialNum)
      (id ≥ bottom && bottom < ring.maxSerial, ring)
  else (isValidContiguous ring id, ring)

/-- `IndexOfId`. -/
def indexOfId (ring : Ring O) (id : ℤ) : ℤ × Ring O :=
  let (valid, ring) := isValidId ring id
  if valid then (id.tmod ring.capacity, ring) else (kInvalidId, ring)

/-- `IdOfIndex`. -/
def idOfIndex (ring : Ring O) (index : ℤ) : ℤ :=
  if index < 0 then kInvalidId
  else if index ≥ ring.capacity then kInvalidId
  else if ring.wrapped then
    -- Indices below the serial number have been handed out since the wrap; the other end of the
    -- array has the high ids.
    if index < ring.serialNum then index else ring.maxSerial - ring.capacity + index
  else if index < ring.serialNum then
    let splitPoint := ring.serialNum.tmod ring.capacity
    if index < splitPoint then ring.serialNum - splitPoint + index
    else ring.serialNum - ring.capacity - splitPoint + index
  else kInvalidId

/-- `AllocateNewId`, with its assertion. -/
def allocateNewId (ring : Ring O) (object : O) : Option (ℤ × Ring O) :=
  let (id, ring) := nextSerial ring
  let (index, ring) := indexOfId ring id
  -- `ASSERT(index != kInvalidId)`
  if index = kInvalidId then none
  else some (id, { ring with table := ring.table.set index.toNat (some object) })

/-- `FindExistingIdForObject`: the id of the first slot that holds the object. -/
def findExistingIdForObject [DecidableEq O] (ring : Ring O) (object : O) : ℤ :=
  match ring.table.findIdx? (· = some object) with
  | some i => idOfIndex ring i
  | none => kInvalidId

/-- `GetIdForObject`. -/
def getIdForObject [DecidableEq O] (ring : Ring O) (object : O) (policy : IdPolicy) :
    Option (ℤ × Ring O) :=
  match policy with
  | .allocateId => allocateNewId ring object
  | .reuseId =>
    let id := findExistingIdForObject ring object
    if id ≠ kInvalidId then some (id, ring) else allocateNewId ring object

/-- `GetObjectForId`: an empty slot means that its object has been collected. -/
def getObjectForId (ring : Ring O) (id : ℤ) : (LookupResult × Option O) × Ring O :=
  let (index, ring) := indexOfId ring id
  if index = kInvalidId then ((.expired, none), ring)
  else
    match (ring.table[index.toNat]?).join with
    | none => ((.collected, none), ring)
    | some object => ((.valid, some object), ring)

/-! ## Runs -/

/-- A call of the ring. -/
inductive Op (O : Type) where
  | getId (object : O) (policy : IdPolicy)
  | getObject (id : ℤ)
deriving DecidableEq, Repr

/-- A call, with the log of all allocations: the ids and objects of `AllocateNewId`, the last at the
end. -/
def step [DecidableEq O] (st : Ring O × List (ℤ × O)) (op : Op O) :
    Option (Ring O × List (ℤ × O)) :=
  match op with
  | .getId object policy =>
    (getIdForObject st.1 object policy).map fun (id, ring) =>
      (ring,
        if policy = .reuseId ∧ findExistingIdForObject st.1 object ≠ kInvalidId then st.2
        else st.2 ++ [(id, object)])
  | .getObject id => some ((getObjectForId st.1 id).2, st.2)

/-- A sequence of calls on a new ring. -/
def run [DecidableEq O] (capacity maxSerial : ℤ) (ops : List (Op O)) :
    Option (Ring O × List (ℤ × O)) :=
  ops.foldlM step (newRing capacity maxSerial, [])

end DartVm.ObjectIdRing
