import Rayzor.Library.Slots

/-!
Contract: the array of the runtime, and the functions compiled code calls on it.

Owns: the header, whose buffer is held by value; allocation by size in bytes, and what is
undefined about it; the functions that create, change and combine arrays of eight-byte
slots, each with its own growth and its machine arithmetic.

Does not own: other slot sizes, the views of byte buffers (no such view is created here), the
variants for `Null<Int>` and boxed results, and where dynamic boxes are allocated.
-/

namespace Rayzor.Arrays

open Library

abbrev Word := UInt64

def elemSize : Nat := 8

def initialCapacity : Nat := 8

/-- What does not fit a `usize` is lost. -/
def wrapping (value : Nat) : Nat := value % 2 ^ 64

def bytes (count : Nat) : Nat := wrapping (count * elemSize)

/-- `isize::MAX` rounded down to the alignment: the largest size that has a layout. -/
def maxSize : Nat := 2 ^ 63 - 8

/-- What ends a call without an answer: memory is touched that is not the array's or the
allocator is called against its contract; a loop is never left; a panic. -/
inductive Trap where
  | undefined
  | endless
  | panicked
deriving DecidableEq, Repr

/-- A pointer to the first slot of a buffer; `none` is null. -/
abbrev Pointer := Option (Slots Word)

structure HaxeArray where
  ptr : Pointer
  len : Nat
  cap : Nat
  flags : Nat
deriving DecidableEq, Repr

/-! ### Memory -/

/-- `alloc(Layout::from_size_align_unchecked(size, 8))`: `granted` is the allocator's answer. -/
def alloc (granted : Bool) (size : Nat) : Except Trap Pointer :=
  if size = 0 ∨ maxSize < size then .error .undefined
  else .ok (if granted then some (List.replicate (size / elemSize) none) else none)

/-- `realloc`: the old layout has to be the one the buffer was allocated with. -/
def realloc (granted : Bool) (ptr : Pointer) (oldSize newSize : Nat) : Except Trap Pointer :=
  match ptr with
  | none => .error .undefined
  | some slots =>
      if oldSize = 0 ∨ slots.length * elemSize ≠ oldSize ∨ newSize = 0 ∨ maxSize < newSize then
        .error .undefined
      else .ok (if granted then some (slots.resized (newSize / elemSize)) else none)

def access {α : Type} (ptr : Pointer) (use : Slots Word → Option α) : Except Trap α :=
  match ptr.bind use with
  | some result => .ok result
  | none => .error .undefined

def load (ptr : Pointer) (offset : Nat) : Except Trap Word :=
  access ptr fun slots => slots.load (offset / elemSize)

def store (ptr : Pointer) (offset : Nat) (value : Word) : Except Trap Pointer :=
  access ptr fun slots => (slots.store (offset / elemSize) value).map some

def writeZeros (ptr : Pointer) (offset size : Nat) : Except Trap Pointer :=
  access ptr fun slots => (slots.fill (offset / elemSize) (size / elemSize) 0).map some

/-- `ptr::copy` and `ptr::copy_nonoverlapping`: `size` bytes of `source` at `start` to
`target` at `offset` -/
def copy (target : Pointer) (offset : Nat) (source : Pointer) (start size : Nat) :
    Except Trap Pointer :=
  access target fun slots => source.bind fun from' =>
    (slots.copy (offset / elemSize) from' (start / elemSize) (size / elemSize)).map some

def copyWhen (moves : Bool) (ptr : Pointer) (offset start size : Nat) : Except Trap Pointer :=
  if moves then copy ptr offset ptr start size else pure ptr

/-- `if moves { ptr::copy_nonoverlapping(..) }` from the start of another buffer -/
def copyFromWhen (moves : Bool) (target : Pointer) (offset : Nat) (source : Pointer) (size : Nat) :
    Except Trap Pointer :=
  if moves then copy target offset source 0 size else pure target

/-! ### Creation -/

def haxeArrayNew (granted : Bool) : Except Trap HaxeArray := do
  match ← alloc granted (bytes initialCapacity) with
  | none => .error .panicked
  | some slots => pure { ptr := some slots, len := 0, cap := initialCapacity, flags := 0 }

/-- `haxe_array_from_elements`, from `count` slots of `elements` at the byte `start` -/
def haxeArrayFromElements (granted : Bool) (elements : Pointer) (start count : Nat) :
    Except Trap HaxeArray :=
  if count = 0 then haxeArrayNew granted
  else do
    let cap := max count initialCapacity
    match ← alloc granted (bytes cap) with
    | none => .error .panicked
    | some slots =>
        let ptr ← copy (some slots) 0 elements start (bytes count)
        pure { ptr, len := count, cap, flags := 0 }

/-- The header the JSON parser starts an array with -/
def emptyArray : HaxeArray := { ptr := none, len := 0, cap := 0, flags := 0 }

/-! ### Growth -/

/-- `while new_cap < new_len { new_cap *= 2 }`. A capacity that is still too small after 64
rounds is zero and stays zero. -/
def doubleUntil (needed : Nat) : Nat → Nat → Except Trap Nat
  | 0, _ => .error .endless
  | rounds + 1, cap =>
      if cap < needed then doubleUntil needed rounds (wrapping (cap * 2)) else .ok cap

def startingCapacity (cap : Nat) : Nat := if cap = 0 then initialCapacity else cap

/-- The buffer gets room for `newCap` slots; `none` where the allocator refuses. -/
def grow (granted : Bool) (array : HaxeArray) (newCap : Nat) : Except Trap (Option HaxeArray) := do
  let newSize := bytes newCap
  let newPtr ←
    if array.ptr = none ∨ array.cap = 0 then alloc granted newSize
    else realloc granted array.ptr (bytes array.cap) newSize
  pure (newPtr.map fun slots => { array with ptr := some slots, cap := newCap })

def ensureCapacity (granted : Bool) (array : HaxeArray) (newLen : Nat) :
    Except Trap (Option HaxeArray) :=
  if array.cap < newLen then do
    let newCap ← doubleUntil newLen 65 (startingCapacity array.cap)
    grow granted array newCap
  else pure (some array)

/-- An array that is too short is given `newLen` elements, zeros after those it has. -/
def expand (granted : Bool) (array : HaxeArray) (newLen : Nat) :
    Except Trap (Option HaxeArray) :=
  if array.len < newLen then do
    match ← ensureCapacity granted array newLen with
    | none => pure none
    | some grown =>
        let ptr ← writeZeros grown.ptr (bytes grown.len) (bytes (newLen - grown.len))
        pure (some { grown with ptr, len := newLen })
  else pure (some array)

def doubledCapacity (cap : Nat) : Nat := if cap = 0 then initialCapacity else wrapping (cap * 2)

/-- Room for one more element; the callers panic where the allocator refuses. -/
def reserve (granted : Bool) (array : HaxeArray) : Except Trap HaxeArray :=
  if array.cap ≤ array.len then do
    match ← grow granted array (doubledCapacity array.cap) with
    | none => .error .panicked
    | some grown => pure grown
  else pure array

/-! ### Stores -/

/-- The shared body of the functions that set one element -/
def setWith (granted : Bool) (array : HaxeArray) (index : Word) (value : Word) :
    Except Trap (HaxeArray × Bool) := do
  match ← expand granted array (wrapping (index.toNat + 1)) with
  | none => pure (array, false)
  | some expanded =>
      let ptr ← store expanded.ptr (bytes index.toNat) value
      pure ({ expanded with ptr }, true)

/-- `haxe_array_set`: a null `data` stores zeros. -/
def haxeArraySet (granted : Bool) (array : HaxeArray) (index : Word) (data : Option Word) :
    Except Trap (HaxeArray × Bool) :=
  setWith granted array index (data.getD 0)

def haxeArraySetI64 (granted : Bool) (array : HaxeArray) (index value : Word) :
    Except Trap (HaxeArray × Bool) :=
  setWith granted array index value

def haxeArraySetF64 (granted : Bool) (array : HaxeArray) (index bits : Word) :
    Except Trap (HaxeArray × Bool) :=
  setWith granted array index bits

def haxeArraySetNull (granted : Bool) (array : HaxeArray) (index : Word) :
    Except Trap (HaxeArray × Bool) :=
  setWith granted array index 0

/-! ### One element in or out -/

def haxeArrayPush (granted : Bool) (array : HaxeArray) (data : Option Word) :
    Except Trap HaxeArray :=
  match data with
  | none => pure array
  | some value => do
      let array ← reserve granted array
      let ptr ← store array.ptr (bytes array.len) value
      pure { array with ptr, len := wrapping (array.len + 1) }

/-- `haxe_array_pop`; `wanted` says that `out` is not null. -/
def haxeArrayPop (array : HaxeArray) (wanted : Bool) :
    Except Trap (HaxeArray × Bool × Option Word) :=
  if array.len = 0 then pure (array, false, none)
  else do
    let len := array.len - 1
    let out ← if wanted then some <$> load array.ptr (bytes len) else pure none
    pure ({ array with len }, true, out)

def haxeArrayPopI64 (array : HaxeArray) : Except Trap (HaxeArray × Word) :=
  if array.len = 0 then pure (array, 0)
  else do
    let len := array.len - 1
    let value ← load array.ptr (bytes len)
    pure ({ array with len }, value)

/-- The growth of `haxe_array_insert`, which takes for granted that there is a buffer -/
def reserveByRealloc (granted : Bool) (array : HaxeArray) : Except Trap HaxeArray :=
  if array.cap ≤ array.len then do
    let newCap := wrapping (array.cap * 2)
    match ← realloc granted array.ptr (bytes array.cap) (bytes newCap) with
    | none => .error .panicked
    | some slots => pure { array with ptr := some slots, cap := newCap }
  else pure array

def haxeArrayInsert (granted : Bool) (array : HaxeArray) (index : Int32) (data : Option Word) :
    Except Trap HaxeArray :=
  match data with
  | none => pure array
  | some value => do
      let insertPos := min (max index.toInt 0).toNat array.len
      let array ← reserveByRealloc granted array
      let ptr ← copyWhen (insertPos < array.len) array.ptr
        (wrapping (bytes insertPos + elemSize)) (bytes insertPos) (bytes (array.len - insertPos))
      let ptr ← store ptr (bytes insertPos) value
      pure { array with ptr, len := wrapping (array.len + 1) }

def haxeArrayRemove (array : HaxeArray) (index : Word) : Except Trap (HaxeArray × Bool) :=
  if array.len ≤ index.toNat then pure (array, false)
  else do
    let ptr ← copyWhen (index.toNat < array.len - 1) array.ptr (bytes index.toNat)
      (bytes (index.toNat + 1)) (bytes (array.len - index.toNat - 1))
    pure ({ array with ptr, len := array.len - 1 }, true)

def haxeArrayShift (array : HaxeArray) : Except Trap (HaxeArray × Word) :=
  if array.len = 0 then pure (array, 0)
  else do
    let first ← load array.ptr 0
    let ptr ← copyWhen (1 < array.len) array.ptr 0 elemSize (bytes (array.len - 1))
    pure ({ array with ptr, len := array.len - 1 }, first)

def haxeArrayUnshift (granted : Bool) (array : HaxeArray) (value : Word) :
    Except Trap HaxeArray := do
  let array ← reserve granted array
  let ptr ← copyWhen (0 < array.len) array.ptr elemSize 0 (bytes array.len)
  let ptr ← store ptr 0 value
  pure { array with ptr, len := wrapping (array.len + 1) }

def haxeArrayResize (granted : Bool) (array : HaxeArray) (newLen : Int64) :
    Except Trap HaxeArray :=
  if newLen.toInt < 0 then pure array
  else if newLen.toInt.toNat ≤ array.len then pure { array with len := newLen.toInt.toNat }
  else do
    match ← expand granted array newLen.toInt.toNat with
    | none => .error .panicked
    | some expanded => pure expanded

/-! ### Whole arrays -/

/-- The loop of `haxe_array_reverse` -/
def reverseBetween (ptr : Pointer) (i j : Nat) : Except Trap Pointer :=
  if i < j then do
    let swapped ← access ptr fun slots =>
      (slots.swap (bytes i / elemSize) (bytes j / elemSize)).map some
    reverseBetween swapped (i + 1) (j - 1)
  else pure ptr
termination_by j - i

/-- `haxe_array_reverse`: the buffer for the swaps is used whether or not it was allocated. -/
def haxeArrayReverse (granted : Bool) (array : HaxeArray) : Except Trap HaxeArray :=
  if array.len ≤ 1 then pure array
  else do
    match ← alloc granted elemSize with
    | none => .error .undefined
    | some _ =>
        let ptr ← reverseBetween array.ptr 0 (array.len - 1)
        pure { array with ptr }

def haxeArrayView : Nat := 1
def haxeArrayIntElems : Nat := 2
def haxeArrayBoxedElems : Nat := 4
def haxeArraySlotLayout : Nat := 8

def withoutView (flags : Nat) : Nat := flags - (flags &&& haxeArrayView)

def haxeArrayCopy (granted : Bool) (array : HaxeArray) : Except Trap HaxeArray := do
  let out ← haxeArrayFromElements granted array.ptr 0 array.len
  pure { out with flags := withoutView array.flags }

def haxeArraySlice (granted : Bool) (array : HaxeArray) (start stop : Word) :
    Except Trap HaxeArray := do
  let actualStart := min start.toNat array.len
  let actualEnd := min stop.toNat array.len
  let out ←
    if actualEnd ≤ actualStart then haxeArrayNew granted
    else haxeArrayFromElements granted array.ptr (bytes actualStart) (actualEnd - actualStart)
  pure { out with flags := withoutView array.flags }

def storedSlotLayout (flags : Nat) : Option Nat :=
  if flags &&& haxeArrayBoxedElems ≠ 0 then some 0
  else if flags &&& haxeArraySlotLayout ≠ 0 then some (flags >>> 8)
  else if flags &&& (haxeArrayIntElems ||| haxeArrayView) ≠ 0 then some 3
  else none

/-- The slots of a concatenation are boxed, each by the layout of the array it came from. -/
def boxSlots (box : Word → Nat → Word) (firstLen : Nat) (first second : Nat) :
    Nat → Pointer → Except Trap Pointer
  | 0, ptr => pure ptr
  | i + 1, ptr => do
      let ptr ← boxSlots box firstLen first second i ptr
      let value ← load ptr (bytes i)
      store ptr (bytes i) (box value (if i < firstLen then first else second))

/-- `haxe_array_concat`; `box` is `box_erased_array_slot`, and `none` a null array. -/
def haxeArrayConcat (box : Word → Nat → Word) (granted : Bool) (array other : Option HaxeArray) :
    Except Trap HaxeArray := do
  let arrLen := (array.map HaxeArray.len).getD 0
  let otherLen := (other.map HaxeArray.len).getD 0
  let totalLen := wrapping (arrLen + otherLen)
  let cap := max totalLen initialCapacity
  match ← alloc granted (bytes cap) with
  | none => .error .panicked
  | some slots =>
      let arrPtr := array.bind HaxeArray.ptr
      let otherPtr := other.bind HaxeArray.ptr
      let ptr ← copyFromWhen (0 < arrLen ∧ arrPtr ≠ none) (some slots) 0 arrPtr (bytes arrLen)
      let ptr ← copyFromWhen (0 < otherLen ∧ otherPtr ≠ none) ptr (bytes arrLen) otherPtr
        (bytes otherLen)
      let firstFlags := (array.map fun array => withoutView array.flags).getD 0
      let secondFlags := (other.map fun other => withoutView other.flags).getD 0
      let out : HaxeArray :=
        { ptr, len := totalLen, cap, flags := if arrLen = 0 then secondFlags else firstFlags }
      if 0 < arrLen ∧ 0 < otherLen ∧ firstFlags ≠ secondFlags then
        match storedSlotLayout ((array.map HaxeArray.flags).getD 0),
            storedSlotLayout ((other.map HaxeArray.flags).getD 0) with
        | some first, some second => do
            let ptr ← boxSlots box arrLen first second totalLen out.ptr
            pure { out with ptr, flags := haxeArrayBoxedElems }
        | _, _ => pure out
      else pure out

def asI64 (value : Int) : Int := value.bmod (2 ^ 64)

def haxeArraySplice (granted : Bool) (array : HaxeArray) (pos len : Int64) :
    Except Trap (HaxeArray × HaxeArray) := do
  let actualPos :=
    if pos.toInt < 0 then (max (asI64 (asI64 array.len + pos.toInt)) 0).toNat
    else min pos.toInt.toNat array.len
  if len.toInt ≤ 0 ∨ array.len ≤ actualPos then do
    let out ← haxeArrayNew granted
    pure (array, { out with flags := withoutView array.flags })
  else do
    let actualLen := min len.toInt.toNat (array.len - actualPos)
    let out ← haxeArrayFromElements granted array.ptr (bytes actualPos) actualLen
    let remaining := array.len - actualPos - actualLen
    let ptr ← copyWhen (0 < remaining) array.ptr (bytes actualPos)
      (bytes (actualPos + actualLen)) (bytes remaining)
    pure ({ array with ptr, len := array.len - actualLen },
      { out with flags := withoutView array.flags })

/-! ### Sorting -/

/-- A comparison function as the runtime calls it: through its typed entry, or through the
dynamic one where it has one and the slots are boxes; the answer is then unboxed. -/
structure Comparator where
  typed : Word → Word → Int
  boxed : Option (Word → Word → Int)

def Comparator.entryFor (comparator : Comparator) (flags : Nat) : Word → Word → Int :=
  match comparator.boxed with
  | some boxed => if flags &&& haxeArrayBoxedElems ≠ 0 then boxed else comparator.typed
  | none => comparator.typed

/-- The inner loop: what is above the key moves up by one. The count is `j + 1`; so is the
answer, the place of the key. -/
def shiftAbove (compare : Word → Word → Int) (key : Word) :
    Nat → Pointer → Except Trap (Pointer × Nat)
  | 0, ptr => pure (ptr, 0)
  | j + 1, ptr => do
      let value ← load ptr (bytes j)
      if 0 < compare value key then do
        let ptr ← store ptr (bytes (j + 1)) value
        shiftAbove compare key j ptr
      else pure (ptr, j + 1)

/-- `count` rounds of the outer loop, from the element at `i` on -/
def sortFrom (compare : Word → Word → Int) : Nat → Nat → Pointer → Except Trap Pointer
  | 0, _, ptr => pure ptr
  | count + 1, i, ptr => do
      let key ← load ptr (bytes i)
      let (ptr, place) ← shiftAbove compare key i ptr
      let ptr ← store ptr (bytes place) key
      sortFrom compare count (i + 1) ptr

def haxeArraySort (array : HaxeArray) (comparator : Comparator) : Except Trap HaxeArray :=
  if array.len ≤ 1 then pure array
  else do
    let ptr ← sortFrom (comparator.entryFor array.flags) (array.len - 1) 1 array.ptr
    pure { array with ptr }

end Rayzor.Arrays
