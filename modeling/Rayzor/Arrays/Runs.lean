import Rayzor.Arrays.Whole

/-!
Contract: programs that work on arrays, and programs that work on lists.

Owns: the calls a program makes on the arrays it has, with what the allocator answers; the
same calls on lists; which calls leave the growth of an array room to happen; and what it is
for a run on arrays to be one on lists.

Does not own: what a single function does, the proof that careful runs are runs on lists.
-/

namespace Rayzor.Arrays

open Library

/-- A comparison the claim of a stable sort is about -/
def ConsistentComparator := { comparator : Comparator // Consistent comparator.typed }

/-- What a program asks for. A handle that stands for no array is a null pointer. -/
inductive Action where
  | new
  | fromElements (elements : List Word)
  | parsed
  | set (handle : Nat) (index : Word) (data : Option Word)
  | setI64 (handle : Nat) (index value : Word)
  | setF64 (handle : Nat) (index bits : Word)
  | setNull (handle : Nat) (index : Word)
  | push (handle : Nat) (data : Option Word)
  | pop (handle : Nat) (wanted : Bool)
  | popI64 (handle : Nat)
  | insert (handle : Nat) (index : Int32) (data : Option Word)
  | remove (handle : Nat) (index : Word)
  | shift (handle : Nat)
  | unshift (handle : Nat) (value : Word)
  | resize (handle : Nat) (newLen : Int64)
  | reverse (handle : Nat)
  | sort (handle : Nat) (comparator : ConsistentComparator)
  | copy (handle : Nat)
  | slice (handle : Nat) (start stop : Word)
  | splice (handle : Nat) (pos len : Int64)
  | concat (first second : Nat)

inductive Reply where
  | nothing
  | stored (done : Bool)
  | popped (found : Bool) (out : Option Word)
  | word (value : Word)
deriving DecidableEq, Repr

/-- An action, and whether the allocator grants what it needs -/
structure Call where
  action : Action
  granted : Bool

def change (arrays : List HaxeArray) (handle : Nat) (null : Reply)
    (function : HaxeArray → Except Trap (HaxeArray × Reply)) :
    Except Trap (List HaxeArray × Reply) :=
  match arrays[handle]? with
  | none => pure (arrays, null)
  | some array => do
      let (array, reply) ← function array
      pure (arrays.set handle array, reply)

/-- A function without an answer -/
def silently (result : Except Trap HaxeArray) : Except Trap (HaxeArray × Reply) := do
  let array ← result
  pure (array, .nothing)

def answering {α : Type} (reply : α → Reply) (result : Except Trap (HaxeArray × α)) :
    Except Trap (HaxeArray × Reply) := do
  let (array, answer) ← result
  pure (array, reply answer)

/-- A function that fills in the header of another array -/
def create (arrays : List HaxeArray) (result : Except Trap HaxeArray) :
    Except Trap (List HaxeArray × Reply) := do
  let out ← result
  pure (arrays ++ [out], .nothing)

/-- `copy` and `slice` leave the header they should fill in alone for a null array. -/
def createFrom (arrays : List HaxeArray) (handle : Nat)
    (function : HaxeArray → Except Trap HaxeArray) : Except Trap (List HaxeArray × Reply) :=
  match arrays[handle]? with
  | none => pure (arrays, .nothing)
  | some array => create arrays (function array)

/-- `box` is what boxes a slot of an array of another layout. -/
def exec (box : Word → Nat → Word) (arrays : List HaxeArray) (call : Call) :
    Except Trap (List HaxeArray × Reply) :=
  match call.action with
  | .new => create arrays (haxeArrayNew call.granted)
  | .fromElements elements =>
      create arrays (haxeArrayFromElements call.granted (some (elements.map some)) 0
        elements.length)
  | .parsed => create arrays (pure emptyArray)
  | .set handle index data => change arrays handle (.stored false) fun array =>
      answering .stored (haxeArraySet call.granted array index data)
  | .setI64 handle index value => change arrays handle (.stored false) fun array =>
      answering .stored (haxeArraySetI64 call.granted array index value)
  | .setF64 handle index bits => change arrays handle (.stored false) fun array =>
      answering .stored (haxeArraySetF64 call.granted array index bits)
  | .setNull handle index => change arrays handle (.stored false) fun array =>
      answering .stored (haxeArraySetNull call.granted array index)
  | .push handle data => change arrays handle .nothing fun array =>
      silently (haxeArrayPush call.granted array data)
  | .pop handle wanted => change arrays handle (.popped false none) fun array =>
      answering (fun answer => .popped answer.1 answer.2) (haxeArrayPop array wanted)
  | .popI64 handle => change arrays handle (.word 0) fun array =>
      answering .word (haxeArrayPopI64 array)
  | .insert handle index data => change arrays handle .nothing fun array =>
      silently (haxeArrayInsert call.granted array index data)
  | .remove handle index => change arrays handle (.stored false) fun array =>
      answering .stored (haxeArrayRemove array index)
  | .shift handle => change arrays handle (.word 0) fun array =>
      answering .word (haxeArrayShift array)
  | .unshift handle value => change arrays handle .nothing fun array =>
      silently (haxeArrayUnshift call.granted array value)
  | .resize handle newLen => change arrays handle .nothing fun array =>
      silently (haxeArrayResize call.granted array newLen)
  | .reverse handle => change arrays handle .nothing fun array =>
      silently (haxeArrayReverse call.granted array)
  | .sort handle comparator => change arrays handle .nothing fun array =>
      silently (haxeArraySort array comparator.val)
  | .copy handle => createFrom arrays handle (haxeArrayCopy call.granted)
  | .slice handle start stop => createFrom arrays handle fun array =>
      haxeArraySlice call.granted array start stop
  | .splice handle pos len =>
      match arrays[handle]? with
      | none => create arrays (haxeArrayNew call.granted)
      | some array => do
          let (array, out) ← haxeArraySplice call.granted array pos len
          pure (arrays.set handle array ++ [out], .nothing)
  | .concat first second =>
      create arrays (haxeArrayConcat box call.granted arrays[first]? arrays[second]?)

/-- One list becomes another, as `relation` says for the answer. -/
def Changes (lists : List (List Word)) (handle : Nat) (null : Reply)
    (relation : List Word → Reply → List Word → Prop) (reply : Reply)
    (lists' : List (List Word)) : Prop :=
  match lists[handle]? with
  | none => reply = null ∧ lists' = lists
  | some list => ∃ list', relation list reply list' ∧ lists' = lists.set handle list'

def Becomes (result : List Word → List Word) (answer : List Word → Reply) :
    List Word → Reply → List Word → Prop :=
  fun list reply list' => reply = answer list ∧ list' = result list

/-- The element is set, or the answer says that it is not, for want of memory. -/
def Assigns (granted : Bool) (index value : Word) : List Word → Reply → List Word → Prop :=
  fun list reply list' =>
    reply = .stored true ∧ list' = assigned list index.toNat value ∨
      granted = false ∧ reply = .stored false ∧ list' = list

def Creates (lists : List (List Word)) (list : List Word) (reply : Reply)
    (lists' : List (List Word)) : Prop :=
  reply = .nothing ∧ lists' = lists ++ [list]

/-- A list made from another is added. -/
def CreatesFrom (lists : List (List Word)) (handle : Nat) (result : List Word → List Word)
    (reply : Reply) (lists' : List (List Word)) : Prop :=
  match lists[handle]? with
  | none => reply = .nothing ∧ lists' = lists
  | some list => Creates lists (result list) reply lists'

def Specified (lists : List (List Word)) (call : Call) :
    Reply → List (List Word) → Prop :=
  match call.action with
  | .new => Creates lists []
  | .fromElements elements => Creates lists elements
  | .parsed => Creates lists []
  | .set handle index data =>
      Changes lists handle (.stored false) (Assigns call.granted index (data.getD 0))
  | .setI64 handle index value =>
      Changes lists handle (.stored false) (Assigns call.granted index value)
  | .setF64 handle index bits =>
      Changes lists handle (.stored false) (Assigns call.granted index bits)
  | .setNull handle index =>
      Changes lists handle (.stored false) (Assigns call.granted index 0)
  | .push handle data =>
      Changes lists handle .nothing (Becomes (· ++ data.toList) fun _ => .nothing)
  | .pop handle wanted => Changes lists handle (.popped false none)
      (Becomes List.dropLast fun list =>
        .popped (!list.isEmpty) (if wanted then list.getLast? else none))
  | .popI64 handle => Changes lists handle (.word 0)
      (Becomes List.dropLast fun list => .word (list.getLast?.getD 0))
  | .insert handle index data => Changes lists handle .nothing
      (Becomes (fun list => data.elim list (inserted list index.toInt)) fun _ => .nothing)
  | .remove handle index => Changes lists handle (.stored false)
      (Becomes (·.eraseIdx index.toNat) fun list => .stored (index.toNat < list.length))
  | .shift handle => Changes lists handle (.word 0)
      (Becomes List.tail fun list => .word (list.head?.getD 0))
  | .unshift handle value =>
      Changes lists handle .nothing (Becomes (value :: ·) fun _ => .nothing)
  | .resize handle newLen =>
      Changes lists handle .nothing (Becomes (resizedTo · newLen.toInt) fun _ => .nothing)
  | .reverse handle => Changes lists handle .nothing (Becomes List.reverse fun _ => .nothing)
  | .sort handle comparator => Changes lists handle .nothing fun list reply sorted =>
      reply = .nothing ∧ StablySorts comparator.val.typed list sorted
  | .copy handle => CreatesFrom lists handle id
  | .slice handle start stop =>
      CreatesFrom lists handle fun list => (list.take stop.toNat).drop start.toNat
  | .splice handle pos len => fun reply lists' =>
      match lists[handle]? with
      | none => Creates lists [] reply lists'
      | some list => Creates (lists.set handle (spliceKept list pos.toInt len.toInt))
          (spliceRemoved list pos.toInt len.toInt) reply lists'
  | .concat first second =>
      Creates lists (lists[first]?.getD [] ++ lists[second]?.getD [])

def OfArray (arrays : List HaxeArray) (handle : Nat) (required : HaxeArray → Prop) : Prop :=
  ∀ array, arrays[handle]? = some array → required array

/-- An index or a length past the capacity can be reached by doubling it; a full array can be
doubled, and for an insertion it has a buffer; a reversal gets its scratch buffer; and what
is put together has a layout. -/
def Careful (arrays : List HaxeArray) (call : Call) : Prop :=
  match call.action with
  | .fromElements elements => elements.length < maxCapacity
  | .set handle index _ | .setI64 handle index _ | .setF64 handle index _
  | .setNull handle index => OfArray arrays handle (CanReach · (index.toNat + 1))
  | .push handle data => OfArray arrays handle fun array => data.isSome → CanDouble array
  | .insert handle _ data =>
      OfArray arrays handle fun array => data.isSome → CanDouble array ∧ array.cap ≠ 0
  | .unshift handle _ => OfArray arrays handle CanDouble
  | .resize handle newLen => OfArray arrays handle fun array =>
      0 ≤ newLen.toInt → CanReach array newLen.toInt.toNat
  | .reverse handle => OfArray arrays handle fun array => array.len ≤ 1 ∨ call.granted = true
  | .concat first second =>
      (arrays[first]?.map HaxeArray.len).getD 0 + (arrays[second]?.map HaxeArray.len).getD 0 <
        maxCapacity
  | _ => True

/-- A run of allowed calls, with the arrays it ends with and what was answered. -/
inductive Reaches (box : Word → Nat → Word) (allowed : List HaxeArray → Call → Prop) :
    List HaxeArray → List (Call × Reply) → Prop
  | start : Reaches box allowed [] []
  | call {arrays arrays' : List HaxeArray} {history : List (Call × Reply)} {call : Call}
      {reply : Reply} (reached : Reaches box allowed arrays history)
      (isAllowed : allowed arrays call) (executes : exec box arrays call = .ok (arrays', reply)) :
      Reaches box allowed arrays' (history ++ [(call, reply)])

inductive Recorded : List (List Word) → List (Call × Reply) → Prop
  | start : Recorded [] []
  | call {lists lists' : List (List Word)} {history : List (Call × Reply)} {call : Call}
      {reply : Reply} (recorded : Recorded lists history)
      (specified : Specified lists call reply lists') : Recorded lists' (history ++ [(call, reply)])

/-- The arrays hold the lists that the same calls make, and no allowed call does anything
undefined or runs on for ever: at most it panics, for want of memory. -/
structure Refines (box : Word → Nat → Word) (allowed : List HaxeArray → Call → Prop)
    (arrays : List HaxeArray) (history : List (Call × Reply)) : Prop where
  lists : ∃ lists, Recorded lists history ∧ List.Forall₂ Holds arrays lists
  defined : ∀ call, allowed arrays call → ∀ trap, exec box arrays call = .error trap →
    Refused call.granted trap

end Rayzor.Arrays
