import TransactionalMemory.BankWorkload
import TransactionalMemory.ClosureCode
import TransactionalMemory.CommittedPointers

/-! # The closures of the bank workload

The transactions of `WorkloadBank` as code that reads and writes single words of shared
memory: the fields of a segment of accounts, and the counter of `check`. -/
namespace BankClosures

open RegionState
open CommittedPointers
open BankWorkload hiding step system init
open Closures
open ClosureCode

/-! ### A segment of accounts in words -/

/-- `AccountSegment::size`: `count`, `next`, `parity` and the accounts. -/
def AccountSegment.size (nbaccounts : ℕ) : ℕ := 3 + nbaccounts

def asSize : Word ℤ → ℕ
  | .data v => v.toNat
  | .pointer .. => 0

def asBalance : Word ℤ → ℤ
  | .data v => v
  | .pointer .. => 0

def asPointer : Word ℤ → Option SegId
  | .data _ => none
  | .pointer g _ => some g

/-- The null pointer is the word that a new segment is filled with. -/
def ofPointer : Option SegId → Word ℤ
  | none => 0
  | some g => .pointer g 0

/-! ### The closures -/

/-- What a closure returns or throws, `short_tx` and the checks their `bool`, `long_tx` also
what it has written to `nbaccounts`. -/
inductive Result where
  | void
  | bool (b : Bool)
  | long (b : Bool) (nbaccounts : Option ℕ)
  | size (n : ℤ)
  | nomem
  | thrown (f : Fault)
  deriving DecidableEq, Repr

/-- The closures and what they capture; `short_tx` assigns to its two indices. -/
inductive Captured where
  | fill
  | filled
  | long
  | alloc (trigger : ℕ)
  | short (sendId recvId : ℕ)
  | setCounter (initCounter : ℤ)
  | counterIs (value : ℤ)
  | readCounter
  | decrement (last : ℤ)
  deriving DecidableEq, Repr

/-- A round of a loop; a closure without a loop has one round. -/
inductive Round where
  | fill
  | fillAccounts (i : ℕ)
  | filled
  | long (start : SegId) (count : ℕ) (sum : ℤ)
  | longAccounts (start : SegId) (segmentCount i count : ℕ) (sum : ℤ)
  | alloc (trigger count : ℕ) (prev : Option SegId) (start : SegId)
  | short (send recv : Search SegId) (start : SegId)
  | setCounter (initCounter : ℤ)
  | counterIs (value : ℤ)
  | readCounter
  | decrement (last : ℤ)

abbrev BankCode := Code (Word ℤ) Result Captured Round

def readCount (start : SegId) (next : ℕ → BankCode) : BankCode :=
  .read start 0 fun w => next (asSize w)

def readNext (start : SegId) (next : Option SegId → BankCode) : BankCode :=
  .read start 1 fun w => next (asPointer w)

def readParity (start : SegId) (next : ℤ → BankCode) : BankCode :=
  .read start 2 fun w => next (asBalance w)

def readBalance (p : SegId × ℕ) (next : ℤ → BankCode) : BankCode :=
  .read p.1 (3 + p.2) fun w => next (asBalance w)

def writeCount (start : SegId) (n : ℕ) (next : BankCode) : BankCode :=
  .write start 0 (.data n) next

def writeNext (start : SegId) (p : Option SegId) (next : BankCode) : BankCode :=
  .write start 1 (ofPointer p) next

def writeParity (start : SegId) (v : ℤ) (next : BankCode) : BankCode :=
  .write start 2 (.data v) next

def writeBalance (p : SegId × ℕ) (v : ℤ) (next : BankCode) : BankCode :=
  .write p.1 (3 + p.2) (.data v) next

variable (k : Constants)

/-- The assertion aside, `segment.next.alloc`. -/
def allocAfter (start : SegId) (next : SegId → BankCode) : BankCode :=
  .alloc (AccountSegment.size k.nbaccounts) fun addr =>
    match addr with
    | none => .ret .nomem
    | some addr => writeNext start (some addr) (next addr)

/-- `segment.next.alloc` -/
def allocNext (start : SegId) (next : SegId → BankCode) : BankCode :=
  if k.assertMode then readNext start fun p =>
    if p.isSome then .ret (.thrown .doubleAlloc) else allocAfter k start next
  else allocAfter k start next

/-- The assertion aside, `segment.next.free`. -/
def freeAfter (start : SegId) (next : BankCode) : BankCode :=
  readNext start fun p =>
  match p with
  | none => .ret (.thrown .nullPointer)
  | some target => .free target (writeNext start none next)

/-- `segment.next.free` -/
def freeNext (start : SegId) (next : BankCode) : BankCode :=
  if k.assertMode then readNext start fun p =>
    if p.isNone then .ret (.thrown .doubleFree) else freeAfter start next
  else freeAfter start next

/-- `segmentCount` is already one less. -/
def deallocate (prev : Option SegId) (start : SegId) (segmentCount : ℕ) : BankCode :=
  readParity start fun parity =>
  readBalance (start, segmentCount) fun balance =>
  let newParity := parity + balance - k.initBalance
  if 0 < segmentCount then
    writeCount start segmentCount <| writeParity start newParity <| .ret .void
  else
    match prev with
    | none => .ret (.thrown (if k.assertMode then .notLastSegment else .nullPointer))
    | some prev =>
      freeNext k prev <| readParity prev fun parity =>
      writeParity prev (parity + newParity) <| .ret .void

def allocate (start : SegId) (segmentCount : ℕ) : BankCode :=
  if segmentCount < k.nbaccounts then
    writeBalance (start, segmentCount) k.initBalance <| writeCount start (segmentCount + 1) <|
    .ret .void
  else
    allocNext k start fun next =>
    writeCount next 1 <| writeBalance (next, 0) k.initBalance <| .ret .void

/-- A round of the loop of `alloc_tx`. -/
def allocRound (trigger count : ℕ) (prev : Option SegId) (start : SegId) : BankCode :=
  readCount start fun segmentCount =>
  let count := count + segmentCount
  readNext start fun segmentNext =>
  match segmentNext with
  | none =>
    if trigger < count ∧ 2 < count then
      match segmentCount with
      | 0 => .ret (.thrown .underflow)
      | segmentCount + 1 => deallocate k prev start segmentCount
    else allocate k start segmentCount
  | some next => .goto (.alloc trigger count (some start) next)

def transfer (sender recver : SegId × ℕ) : BankCode :=
  readBalance sender fun sendVal =>
  if 0 < sendVal then
    writeBalance sender (sendVal - 1) <| readBalance recver fun recvVal =>
    writeBalance recver (recvVal + 1) <| .ret (.bool true)
  else .ret (.bool true)

/-- A round of the loop of `short_tx`; the indices stay subtracted. -/
def shortRound (send recv : Search SegId) (start : SegId) : BankCode :=
  readCount start fun segmentCount =>
  let send := send.visit start segmentCount
  let recv := recv.visit start segmentCount
  .capture (.short send.id recv.id) <|
  match found send recv with
  | some (sender, recver) => transfer sender recver
  | none =>
    readNext start fun next =>
    match next with
    | none => .ret (.bool false)
    | some next => .goto (.short send recv next)

/-- A round of the outer loop of `long_tx`. -/
def longRound (start : SegId) (count : ℕ) (sum : ℤ) : BankCode :=
  readCount start fun segmentCount =>
  readParity start fun parity =>
  .goto (.longAccounts start segmentCount 0 (count + segmentCount) (sum + parity))

/-- A round of the inner loop of `long_tx`, or the end of the round of the outer one. -/
def longAccountsRound (start : SegId) (segmentCount i count : ℕ) (sum : ℤ) : BankCode :=
  if i < segmentCount then
    readBalance (start, i) fun balance =>
    if balance < 0 then .ret (.long false none)
    else .goto (.longAccounts start segmentCount (i + 1) count (sum + balance))
  else
    readNext start fun next =>
    match next with
    | some next => .goto (.long next count sum)
    | none => .ret (.long (decide (sum = k.initBalance * count)) (some count))

def fillAccountsRound (i : ℕ) : BankCode :=
  if i < k.nbaccounts then
    writeBalance (0, i) k.initBalance <| .goto (.fillAccounts (i + 1))
  else .ret .void

/-- The value of a `size_t` after a subtraction. -/
def toSize (v : ℤ) : ℤ := v % 2 ^ 64

/-- The first segment is segment 0, and the counter of `check` is its first word. -/
def body : Round → BankCode
  | .fill => writeCount 0 k.nbaccounts <| .goto (.fillAccounts 0)
  | .fillAccounts i => fillAccountsRound k i
  | .filled => readBalance (0, 0) fun balance =>
    .ret (.bool (decide (balance = k.initBalance)))
  | .long start count sum => longRound start count sum
  | .longAccounts start segmentCount i count sum =>
    longAccountsRound k start segmentCount i count sum
  | .alloc trigger count prev start => allocRound k trigger count prev start
  | .short send recv start => shortRound send recv start
  | .setCounter initCounter => .write 0 0 (.data initCounter) <| .ret .void
  | .counterIs value => .read 0 0 fun w => .ret (.bool (decide (asBalance w = value)))
  | .readCounter => .read 0 0 fun w => .ret (.size (asBalance w))
  | .decrement last => .read 0 0 fun w =>
    if last < asBalance w then .ret (.bool false)
    else .write 0 0 (.data (toSize (asBalance w - 1))) <| .ret (.bool true)

def start : Captured → Round
  | .fill => .fill
  | .filled => .filled
  | .long => .long 0 0 0
  | .alloc trigger => .alloc trigger 0 none 0
  | .short sendId recvId => .short ⟨none, sendId⟩ ⟨none, recvId⟩ 0
  | .setCounter initCounter => .setCounter initCounter
  | .counterIs value => .counterIs value
  | .readCounter => .readCounter
  | .decrement last => .decrement last

def source : Source (Word ℤ) Result Captured Round := ⟨body k, start, .thrown .outOfFuel⟩

/-- The mode with which the closure is handed to `transactional`. -/
def Captured.isRo : Captured → Bool
  | .filled | .long | .counterIs _ | .readCounter => true
  | _ => false

end BankClosures
