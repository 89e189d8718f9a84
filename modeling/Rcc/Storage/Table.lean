import Rcc.Lib.Dictionary

/-!
# Rcc.Storage.Table

The data of `libstorage/Table.h` and `libstorage/Table.cpp`: entries, the conditions a `select`
filters them by, table descriptions, and the records of the change log.

Entries are values here. In the program they are shared objects, and `select` hands out the
table's own object; the table modules write back through the entry's id or index, which is where
that object is kept.
-/

namespace Rcc.Storage

/-! ### Versions -/

/-- `g_BCOSConfig.version()`. -/
abbrev Version := Nat

def RC3_VERSION : Version := 3
def V2_1_0 : Version := 0x02010000
def V2_3_0 : Version := 0x02030000
def V2_5_0 : Version := 0x02050000

/-! ### Constants -/

def ID_FIELD : String := "_id_"
def NUM_FIELD : String := "_num_"
def STATUS : String := "_status_"

/-- `isHashField`: the fields that are data of the entry. -/
def isHashField (version : Version) (key : String) : Bool :=
  match key.toList with
  | [] => false
  | c :: cs =>
    c != '_' && (c :: cs).getLast? != some '_' || (version < RC3_VERSION && key == STATUS)

/-! ### Numbers in strings -/

/-- The value of a run of decimal digits. -/
def digitsValue (ds : List Char) : Nat := ds.foldl (fun n d => 10 * n + (d.toNat - 48)) 0

/-- `boost::lexical_cast<int64_t>`; `none` is `bad_lexical_cast`. -/
def lexicalCast (s : String) : Option Int :=
  let signed := match s.toList with
    | '-' :: ds => (true, ds)
    | '+' :: ds => (false, ds)
    | ds => (false, ds)
  let n : Int := if signed.1 then -digitsValue signed.2 else digitsValue signed.2
  if !signed.2.isEmpty && signed.2.all Char.isDigit && decide (-2 ^ 63 ≤ n) && decide (n < 2 ^ 63)
    then some n else none

/-! ### Addresses -/

abbrev Address := Fin (2 ^ 160)

instance Address.neZero : NeZero (2 ^ 160) := ⟨pow_ne_zero 160 two_ne_zero⟩

instance Address.lawfulBEq : LawfulBEq Address := inferInstance

def fromHexChar (c : Char) : Option Nat :=
  if '0' ≤ c ∧ c ≤ '9' then some (c.toNat - 48)
  else if 'a' ≤ c ∧ c ≤ 'f' then some (c.toNat - 87)
  else if 'A' ≤ c ∧ c ≤ 'F' then some (c.toNat - 55)
  else none

/-! ### Entries -/

/-- `Entry`. The capacity counters and the reference count of its data are left out. -/
structure Entry where
  ID : Nat := 0
  status : Int := 0
  tempIndex : Nat := 0
  num : Nat := 0
  force : Bool := false
  deleted : Bool := false
  fields : Dictionary String String := ∅
  deriving DecidableEq

/-- `Entry::Status::DELETED`. -/
def DELETED : Int := 1

namespace Entry

variable (e : Entry)

/-- `getField`: the empty string for a field the entry does not have. -/
def getField (key : String) : String := (e.fields.get? key).getD ""

def fieldExist (key : String) : Bool := (e.fields.get? key).isSome

def setField (key value : String) : Entry := { e with fields := e.fields.set key value }

def setStatus (status : Int) : Entry := { e with status }

def setDeleted (deleted : Bool) : Entry := { e with deleted }

def setTempIndex (tempIndex : Nat) : Entry := { e with tempIndex }

/-- An entry a `select` may return: not removed, and its insertion not undone. -/
def live : Bool := e.status != DELETED && !e.deleted

end Entry

/-! ### Conditions -/

/-- `Condition::Range`: each bound with the flag that says it is included. -/
structure Range where
  left : Bool × String
  right : Bool × String
  deriving DecidableEq

def UNLIMITED : String := "_VALUE_UNLIMITED_"

/-- One bound of a range against a field, as numbers; an empty field counts as zero. -/
def compareBound (bound value : String) (ok : Int → Int → Bool) : Bool :=
  bound == UNLIMITED ||
    match lexicalCast bound, if value.isEmpty then some 0 else lexicalCast value with
    | some lhs, some rhs => ok lhs rhs
    | _, _ => false

/-- One range of a condition against the value of its field. -/
def Range.accepts (version : Version) (r : Range) (value : String) : Bool :=
  if r.left.2 == r.right.2 && r.left.1 && r.right.1 then r.left.2 == value
  else if V2_3_0 ≤ version && r.left.2 == r.right.2 && !r.left.1 && !r.right.1 then
    r.left.2 != value
  else
    compareBound r.left.2 value (fun lhs rhs => if r.left.1 then lhs ≤ rhs else lhs < rhs) &&
    compareBound r.right.2 value (fun lhs rhs => if r.right.1 then rhs ≤ lhs else rhs < lhs)

structure Condition where
  offset : Int := -1
  count : Int := -1
  conditions : Dictionary String Range := ∅
  deriving DecidableEq

namespace Condition

variable (c : Condition)

def EQ (key value : String) : Condition :=
  { c with conditions := c.conditions.set key ⟨(true, value), (true, value)⟩ }

def empty : Bool := c.conditions.entries.isEmpty

/-- `getOffset` and `getCount` return an `int`. -/
def getOffset : Int := c.offset.bmod (2 ^ 32)

def getCount : Int := c.count.bmod (2 ^ 32)

variable (version : Version)

/-- `Condition::process`; a failing `lexical_cast` is caught and counts as a refusal. -/
def process (c : Condition) (e : Entry) : Bool :=
  e.live && c.conditions.entries.all fun p =>
    !isHashField version p.1 ||
      match e.fields.get? p.1 with
      | some value => p.2.accepts version value
      | none => false

theorem live_of_process {version : Version} {c : Condition} {e : Entry}
    (h : c.process version e = true) : e.live = true := by
  simp only [process, Bool.and_eq_true] at h
  exact h.1

/-- Entries that are not alive meet no condition. -/
theorem filter_live_process (c : Condition) (l : List Entry) :
    (l.filter Entry.live).filter (c.process version) = l.filter (c.process version) := by
  rw [List.filter_filter]
  refine List.filter_congr fun e _ => ?_
  cases hp : c.process version e with
  | false => rfl
  | true => simp [live_of_process hp]

theorem empty_EQ (key value : String) : (c.EQ key value).empty = false := by
  have h : (c.EQ key value).conditions.get? key ≠ none := by simp [EQ]
  rw [Bool.eq_false_iff]
  intro hempty
  refine h ?_
  rw [Dictionary.get?, List.isEmpty_iff.mp hempty]
  rfl

end Condition

/-! ### Tables and changes -/

structure TableInfo where
  name : String
  key : String := ""
  fields : List String := []
  authorizedAddress : List Address := []
  enableCache : Bool := true
  enableConsensus : Bool := true
  deriving DecidableEq

/-- What a dump of a table hands to the storage. -/
structure TableData where
  info : TableInfo
  dirtyEntries : List Entry
  newEntries : List Entry
  deriving DecidableEq

structure AccessOptions where
  origin : Address := 0
  check : Bool := true

/-- `Change::Kind` without `Select`, which no function records. -/
inductive Kind
  | insert
  | update
  | remove
  deriving DecidableEq

/-- `Change::Record`. -/
structure Record where
  index : Nat
  key : String := ""
  oldValue : String := ""
  id : Nat := 0
  deriving DecidableEq

/-- `Change`, with the table given by its name. -/
structure Change where
  table : String
  kind : Kind
  key : String
  value : List Record
  deriving DecidableEq

/-- What the functions of the storage layer throw. -/
inductive StorageError
  /-- `std::invalid_argument("Invalid key.")` -/
  | invalidKey
  deriving DecidableEq

def CODE_NO_AUTHORIZED : Int := -50000

end Rcc.Storage
