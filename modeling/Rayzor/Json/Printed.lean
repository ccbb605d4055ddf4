import Rayzor.Json.Parsed

/-!
Contract: printing and parsing JSON.
-/

namespace Rayzor.Json

open Library

def Indents (indent : Option Bytes) : Prop := ∀ unit, indent = some unit → IsSpace unit

namespace Out

theorem pushStr_pushStr (out : Out) (text more : Bytes) :
    (out.pushStr text).pushStr more = out.pushStr (text ++ more) := by
  rw [pushStr, pushStr, pushStr, List.append_assoc]

theorem breakLine_eq (out : Out) (indents : Indents out.indent) :
    ∃ space, IsSpace space ∧ ∀ buf, breakLine { out with buf := buf } =
      pushStr { out with buf := buf } space := by
  obtain ⟨_, indent, level⟩ := out
  cases indent with
  | none =>
      refine ⟨[], IsSpace.nil, fun buf => ?_⟩
      rw [pushStr, List.append_nil]
      rfl
  | some unit =>
      refine ⟨byte '\n' :: (List.replicate level unit).flatten, ?_, fun buf => rfl⟩
      intro b isIn
      rcases List.mem_cons.mp isIn with rfl | isPart
      · decide
      · obtain ⟨part, isPart, isByte⟩ := List.mem_flatten.mp isPart
        rw [List.eq_of_mem_replicate isPart] at isByte
        exact indents unit rfl b isByte

/-- A member after the first. -/
theorem member_later (out : Out) (indents : Indents out.indent) :
    ∃ space, IsSpace space ∧ out.member false = out.pushStr (byte ',' :: space) := by
  obtain ⟨space, isSpace, broken⟩ := breakLine_eq out indents
  refine ⟨space, isSpace, ?_⟩
  rw [member, if_neg Bool.false_ne_true]
  show breakLine { out with buf := out.buf ++ [byte ','] } = _
  rw [broken, pushStr, pushStr, List.append_assoc]
  rfl

theorem member_first (out : Out) (indents : Indents out.indent) :
    ∃ space, IsSpace space ∧
      out.member true = pushStr { out with level := out.level + 1 } space := by
  obtain ⟨space, isSpace, broken⟩ := breakLine_eq { out with level := out.level + 1 } indents
  exact ⟨space, isSpace, broken out.buf⟩

/-- The end of a container with members. -/
theorem close_eq (out : Out) (indents : Indents out.indent) :
    ∃ space, IsSpace space ∧ ∀ text,
      close true (pushStr { out with level := out.level + 1 } text) =
        out.pushStr (text ++ space) := by
  obtain ⟨space, isSpace, broken⟩ := breakLine_eq out indents
  refine ⟨space, isSpace, fun text => ?_⟩
  show breakLine { out with buf := out.buf ++ text } = _
  rw [broken, pushStr, pushStr, List.append_assoc]

end Out

def Prints (platform : Platform) (value : Json) : Prop :=
  ∀ (slot : Dynamic) (out : Out), Holds slot value → Indents out.indent →
    ∃ text, stringifyValue platform slot out = out.pushStr text ∧ IsValue text value

section

variable {platform : Platform}

theorem stringifyElements_later : ∀ {slots : List Dynamic} {values : List Json},
    List.Forall₂ Holds slots values → (∀ value ∈ values, Prints platform value) →
    ∀ out : Out, Indents out.indent → ∃ text,
      stringifyElements platform slots false out = out.pushStr text ∧
        ∀ {before inner after : Bytes} {value : Json}, IsSpace before → IsValue inner value →
          IsSpace after → IsElements (before ++ (inner ++ (text ++ after))) (value :: values)
  | [], _, holds, _, out, _ => by
      cases holds
      refine ⟨[], ?_, fun isBefore isValue isAfter => IsElements.last isBefore isValue isAfter⟩
      rw [stringifyElements, Out.pushStr, List.append_nil]
  | slot :: slots, _, holds, prints, out, indents => by
      cases holds with
      | @cons _ value _ values first later =>
          obtain ⟨space, isSpace, opened⟩ := out.member_later indents
          obtain ⟨text, isText, isValue⟩ := prints value List.mem_cons_self slot
            (out.pushStr (byte ',' :: space)) first indents
          obtain ⟨more, isMore, elements⟩ := stringifyElements_later later
            (fun value isIn => prints value (List.mem_cons_of_mem _ isIn))
            (out.pushStr (byte ',' :: space ++ text)) indents
          refine ⟨byte ',' :: (space ++ (text ++ more)), ?_, ?_⟩
          · rw [stringifyElements, opened, isText, Out.pushStr_pushStr, isMore,
              Out.pushStr_pushStr]
            simp only [List.cons_append, List.append_assoc]
          · intro before inner after value isBefore isInner isAfter
            have rest := elements isSpace isValue isAfter
            have whole := IsElements.more isBefore isInner IsSpace.nil rest
            simp only [List.nil_append, List.cons_append, List.append_assoc] at whole ⊢
            exact whole

theorem prints_array {values : List Json} (each : ∀ value ∈ values, Prints platform value) :
    Prints platform (.array values) := by
  intro dynamic out holds indents
  cases holds with
  | @array slots _ all =>
      cases all with
      | nil =>
          refine ⟨_, ?_, IsValue.emptyArray IsSpace.nil⟩
          rw [stringifyValue, stringifyElements, Out.close]
          exact Out.pushStr_pushStr out _ _
      | @cons slot value slots values first later =>
          obtain ⟨space, isSpace, opened⟩ := (out.pushStr [byte '[']).member_first indents
          obtain ⟨text, isText, isValue⟩ := each value List.mem_cons_self slot
            (Out.pushStr { out.pushStr [byte '['] with level := out.level + 1 } space) first indents
          obtain ⟨more, isMore, elements⟩ := stringifyElements_later later
            (fun value isIn => each value (List.mem_cons_of_mem _ isIn))
            (Out.pushStr { out.pushStr [byte '['] with level := out.level + 1 } (space ++ text))
            indents
          obtain ⟨last, isLast, closed⟩ := (out.pushStr [byte '[']).close_eq indents
          refine ⟨_, ?_, IsValue.array (elements isSpace isValue isLast)⟩
          rw [stringifyValue, stringifyElements, opened]
          show ((stringifyElements platform slots false (stringifyValue platform slot
            (Out.pushStr { out.pushStr [byte '['] with level := out.level + 1 } space))).close
              true).pushStr [byte ']'] = _
          rw [isText, Out.pushStr_pushStr, isMore, Out.pushStr_pushStr]
          have ends := closed (space ++ text ++ more)
          rw [show (out.pushStr [byte '[']).level = out.level from rfl] at ends
          rw [ends, Out.pushStr_pushStr, Out.pushStr_pushStr]
          simp only [List.append_assoc, List.cons_append, List.nil_append]

theorem key_eq (name : List Char) : ∃ key, IsString key name ∧ ∀ out : Out, ∃ middle,
    IsSpace middle ∧
      out.key (Utf8.encode name) = out.pushStr (quoted key ++ byte ':' :: middle) := by
  obtain ⟨key, isKey, printed⟩ := stringifyStringBytes_isString name
  refine ⟨key, isKey, fun out => ?_⟩
  have named : Out.pushStr { out with buf := stringifyStringBytes (Utf8.encode name) out.buf }
      [byte ':'] = out.pushStr (quoted key ++ [byte ':']) := by
    rw [printed, Out.pushStr, Out.pushStr, List.append_assoc]
  rw [Out.key]
  split_ifs
  · refine ⟨[byte ' '], ?_, ?_⟩
    · intro b isIn
      rw [List.mem_singleton.mp isIn]
      decide
    · rw [named, Out.pushStr_pushStr, List.append_assoc]
      rfl
  · exact ⟨[], IsSpace.nil, named⟩

theorem not_function {slot : Dynamic} {value : Json} (holds : Holds slot value) :
    isFunctionValue slot = false := by
  cases holds <;> rfl

/-- What the loop over names is to do with a member: read its value by the name. -/
def IsField (platform : Platform) (fields : Fields) (name : Bytes)
    (member : List Char × Json) : Prop :=
  Utf8.encode member.1 = name ∧ Holds (getField fields name) member.2 ∧ Prints platform member.2

/-- One turn of the loop over names. -/
theorem stringifyMembers_cons {fields : Fields} {name : Bytes} {member : List Char × Json}
    (isField : IsField platform fields name member) (inline : Bool) (rest : List Bytes)
    (first : Bool) (out : Out) (indents : Indents (out.member first).indent) :
    ∃ key middle text, IsString key member.1 ∧ IsSpace middle ∧ IsValue text member.2 ∧
      stringifyMembers platform inline fields (name :: rest) first out =
        stringifyMembers platform inline fields rest false
          ((out.member first).pushStr (quoted key ++ byte ':' :: (middle ++ text))) := by
  obtain ⟨isName, holds, prints⟩ := isField
  obtain ⟨key, isKey, keyed⟩ := key_eq member.1
  obtain ⟨middle, isMiddle, named⟩ := keyed (out.member first)
  obtain ⟨text, isText, isValue⟩ := prints _
    ((out.member first).pushStr (quoted key ++ byte ':' :: middle)) holds indents
  refine ⟨key, middle, text, isKey, isMiddle, isValue, ?_⟩
  rw [stringifyMembers, if_neg (by rw [not_function holds]; exact Bool.false_ne_true), ← isName,
    named, isName, isText, Out.pushStr_pushStr, List.append_assoc, List.cons_append]

theorem stringifyMembers_later {fields : Fields} {inline : Bool} : ∀ {names : List Bytes}
    {listed : List (List Char × Json)},
    List.Forall₂ (IsField platform fields) names listed →
    ∀ out : Out, Indents out.indent → ∃ text,
      stringifyMembers platform inline fields names false out = (false, out.pushStr text) ∧
        ∀ {before key behind middle inner after : Bytes} {name : List Char} {value : Json},
          IsSpace before → IsString key name → IsSpace behind → IsSpace middle →
          IsValue inner value → IsSpace after →
          IsMembers (before ++ (quoted key ++ (behind ++ byte ':' :: (middle ++ (inner ++
            (text ++ after)))))) ((name, value) :: listed)
  | [], _, all, out, _ => by
      cases all
      refine ⟨[], ?_, IsMembers.last⟩
      rw [stringifyMembers, Out.pushStr, List.append_nil]
  | name :: names, _, all, out, indents => by
      cases all with
      | @cons _ member _ listed first later =>
          obtain ⟨space, isSpace, opened⟩ := out.member_later indents
          have indented : Indents (out.member false).indent := by rw [opened]; exact indents
          obtain ⟨key, middle, text, isKey, isMiddle, isValue, turned⟩ :=
            stringifyMembers_cons first inline names false out indented
          obtain ⟨more, isMore, members⟩ := stringifyMembers_later later
            ((out.member false).pushStr (quoted key ++ byte ':' :: (middle ++ text))) indented
          refine ⟨byte ',' :: (space ++ (quoted key ++ byte ':' :: (middle ++ (text ++ more)))), ?_,
            ?_⟩
          · rw [turned, isMore, opened, Out.pushStr_pushStr, Out.pushStr_pushStr]
            simp only [List.cons_append, List.append_assoc]
          · intro before key' behind middle' inner after name value isBefore isKey' isBehind
              isMiddle' isInner isAfter
            have rest := members isSpace isKey IsSpace.nil isMiddle isValue isAfter
            have whole := IsMembers.more isBefore isKey' isBehind isMiddle' isInner IsSpace.nil rest
            simp only [List.nil_append, List.cons_append, List.append_assoc] at whole ⊢
            exact whole

theorem stringifyMembers_isValue {fields : Fields} {inline : Bool} {names : List Bytes}
    {listed members : List (List Char × Json)}
    (all : List.Forall₂ (IsField platform fields) names listed) (permuted : listed.Perm members)
    (out : Out) (indents : Indents out.indent) :
    ∃ text, (((stringifyMembers platform inline fields names true
          (out.pushStr [byte '{'])).2.close
        (!(stringifyMembers platform inline fields names true (out.pushStr [byte '{'])).1)).pushStr
          [byte '}']) = out.pushStr text ∧ IsValue text (.object members) := by
  cases all with
  | nil =>
      have isNil := permuted.symm.eq_nil
      refine ⟨[byte '{', byte '}'], ?_, by rw [isNil]; exact IsValue.emptyObject IsSpace.nil⟩
      rw [stringifyMembers]
      exact Out.pushStr_pushStr out _ _
  | @cons name member names listed first later =>
      obtain ⟨space, isSpace, opened⟩ := (out.pushStr [byte '{']).member_first indents
      have indented : Indents ((out.pushStr [byte '{']).member true).indent := by
        rw [opened]
        exact indents
      obtain ⟨key, middle, text, isKey, isMiddle, isValue, turned⟩ :=
        stringifyMembers_cons first inline names true (out.pushStr [byte '{']) indented
      obtain ⟨more, isMore, isMembers⟩ := @stringifyMembers_later _ _ inline _ _ later
        (((out.pushStr [byte '{']).member true).pushStr
          (quoted key ++ byte ':' :: (middle ++ text))) indented
      obtain ⟨last, isLast, closed⟩ := (out.pushStr [byte '{']).close_eq indents
      refine ⟨_, ?_, IsValue.object
        (isMembers isSpace isKey IsSpace.nil isMiddle isValue isLast) permuted⟩
      have ends := closed (space ++ (quoted key ++ byte ':' :: (middle ++ text)) ++ more)
      rw [turned, isMore, opened, Out.pushStr_pushStr, Out.pushStr_pushStr]
      show (Out.close true (Out.pushStr _ _)).pushStr _ = _
      rw [← List.append_assoc space, ends, Out.pushStr_pushStr, Out.pushStr_pushStr]
      simp only [List.append_assoc, List.cons_append, List.nil_append]

theorem exists_listed {fields : Fields} {inline : Bool} {members : List (List Char × Json)}
    (distinctFields : (fields.map Prod.fst).Nodup) (distinct : (members.map Prod.fst).Nodup)
    (visible : ∀ name, name ∈ anonFields inline fields ↔
      ∃ member ∈ members, Utf8.encode member.1 = name) :
    ∃ listed : List (List Char × Json), listed.Perm members ∧
      List.Forall₂ (fun name member => Utf8.encode member.1 = name) (anonFields inline fields)
        listed := by
  have distinctNames : (anonFields inline fields).Nodup := by
    rw [anonFields]
    split_ifs
    · exact (List.filter_sublist.map Prod.fst).nodup distinctFields
    · exact (List.mergeSort_perm _ _).nodup_iff.mpr distinctFields
  have distinctKeys : (members.map fun member => Utf8.encode member.1).Nodup := by
    have encoded := distinct.map Utf8.encode_injective
    rw [List.map_map] at encoded
    exact encoded
  have permuted : (anonFields inline fields).Perm
      (members.map fun member => Utf8.encode member.1) := by
    rw [List.perm_ext_iff_of_nodup distinctNames distinctKeys]
    intro name
    rw [visible name, List.mem_map]
  have related : List.Forall₂ (fun name (member : List Char × Json) =>
      Utf8.encode member.1 = name) (members.map fun member => Utf8.encode member.1) members := by
    rw [List.forall₂_map_left_iff]
    exact List.forall₂_same.mpr fun _ _ => rfl
  obtain ⟨listed, each, isPermuted⟩ := List.perm_comp_forall₂ permuted related
  exact ⟨listed, isPermuted, each⟩

theorem getField_short {fields : Fields} {name : Bytes} (short : name.length < 2 ^ 32)
    {slot : Slot Dynamic} (found : slot? name fields = some slot) :
    getField fields name = boxValueAsDynamic slot := by
  rw [getField, truncated, Nat.mod_eq_of_lt short, List.take_length, found]

theorem prints_object {members : List (List Char × Json)}
    (distinct : (members.map Prod.fst).Nodup)
    (short : ∀ member ∈ members, (Utf8.encode member.1).length < 2 ^ 32)
    (each : ∀ member ∈ members, Prints platform member.2) :
    Prints platform (.object members) := by
  intro dynamic out holds indents
  cases holds with
  | @object inline fields _ distinctFields visible values =>
      obtain ⟨listed, permuted, named⟩ := exists_listed distinctFields distinct visible
      have isField : ∀ name member, Utf8.encode member.1 = name → member ∈ members →
          IsField platform fields name member := by
        intro name member isName isIn
        have present := (visible name).mpr ⟨member, isIn, isName⟩
        obtain ⟨slot, found⟩ : ∃ slot, slot? name fields = some slot := by
          cases isEntry : slot? name fields with
          | some slot => exact ⟨slot, rfl⟩
          | none =>
              have absent := slot?_eq_none_iff.mp isEntry
              rw [anonFields] at present
              split_ifs at present
              · exact absurd ((List.filter_sublist.map Prod.fst).subset present) absent
              · exact absurd (List.mem_mergeSort.mp present) absent
        have isShort : name.length < 2 ^ 32 := by
          rw [← isName]
          exact short member isIn
        refine ⟨isName, ?_, each member isIn⟩
        rw [getField_short isShort found]
        exact values member isIn slot (by rw [isName]; exact found)
      have all : List.Forall₂ (IsField platform fields) (anonFields inline fields) listed := by
        have within : ∀ member ∈ listed, member ∈ members :=
          fun member isIn => permuted.mem_iff.mp isIn
        generalize anonFields inline fields = names at named
        clear permuted visible
        induction named with
        | nil => exact List.Forall₂.nil
        | cons isName _ ih =>
            exact List.Forall₂.cons (isField _ _ isName (within _ List.mem_cons_self))
              (ih fun member isIn => within member (List.mem_cons_of_mem _ isIn))
      obtain ⟨text, printed, isValue⟩ := @stringifyMembers_isValue _ _ inline _ _ _ all permuted out
        indents
      exact ⟨text, by rw [stringifyValue]; exact printed, isValue⟩

/-- The printer's text of a box is a text of the grammar for the value it holds. -/
theorem stringifyValue_isValue {checks : Bool} : ∀ {value : Json}, Distinct value →
    Fits checks value → Prints platform value
  | .null, _, _ => fun slot out holds _ => by
      cases holds
      exact ⟨_, by rw [stringifyValue]; rfl, IsValue.nullWord⟩
  | .bool value, _, _ => fun slot out holds _ => by
      cases holds
      cases value with
      | false => exact ⟨_, by rw [stringifyValue]; rfl, IsValue.falseWord⟩
      | true => exact ⟨_, by rw [stringifyValue]; rfl, IsValue.trueWord⟩
  | .int value, _, _ => fun slot out holds _ => by
      cases holds
      exact ⟨_, by rw [stringifyValue], IsValue.int (itoa_isInt value)⟩
  | .string text, _, _ => fun slot out holds _ => by
      cases holds
      rw [stringifyValue]
      split_ifs with empty
      · have isNil : text = [] := Utf8.encode_injective (by rw [empty]; rfl)
        rw [isNil]
        exact ⟨_, rfl, IsValue.string IsString.nil⟩
      · obtain ⟨bytes, isString, printed⟩ := stringifyStringBytes_isString text
        exact ⟨_, by rw [printed, Out.pushStr], IsValue.string isString⟩
  | .array values, distinct, fits => by
      cases distinct with
      | array distinct =>
          cases fits with
          | array fits =>
              exact prints_array fun value isIn => by
                have smaller := List.sizeOf_lt_of_mem isIn
                exact stringifyValue_isValue (distinct value isIn) (fits value isIn)
  | .object members, distinct, fits => by
      cases distinct with
      | object names distinct =>
          cases fits with
          | object short fits =>
              exact prints_object names short fun member isIn => by
                have smaller := List.sizeOf_lt_of_mem isIn
                have part : sizeOf member.2 < sizeOf member := by
                  obtain ⟨name, value⟩ := member
                  rw [Prod.mk.sizeOf_spec]
                  show sizeOf value < _
                  omega
                exact stringifyValue_isValue (distinct member isIn) (fits member isIn)
  termination_by value => sizeOf value
  decreasing_by
    · rw [Json.array.sizeOf_spec]
      omega
    · rw [Json.object.sizeOf_spec]
      omega

end

theorem exists_isValue : ∀ value : Json, ∃ text, IsValue text value
  | .null => ⟨_, IsValue.nullWord⟩
  | .bool true => ⟨_, IsValue.trueWord⟩
  | .bool false => ⟨_, IsValue.falseWord⟩
  | .int value => ⟨_, IsValue.int (itoa_isInt value)⟩
  | .string text => by
      obtain ⟨bytes, isString, _⟩ := stringifyStringBytes_isString text
      exact ⟨_, IsValue.string isString⟩
  | .array values => by
      have each : ∀ value ∈ values, ∃ text, IsValue text value := fun value isIn => by
        have smaller := List.sizeOf_lt_of_mem isIn
        exact exists_isValue value
      cases values with
      | nil => exact ⟨_, IsValue.emptyArray IsSpace.nil⟩
      | cons value values =>
          have elements : ∀ (values : List Json) (value : Json),
              (∀ other ∈ value :: values, ∃ text, IsValue text other) →
              ∃ text, IsElements text (value :: values) := by
            intro values
            induction values with
            | nil =>
                intro value each
                obtain ⟨text, isValue⟩ := each value List.mem_cons_self
                exact ⟨_, IsElements.last IsSpace.nil isValue IsSpace.nil⟩
            | cons next values ih =>
                intro value each
                obtain ⟨text, isValue⟩ := each value List.mem_cons_self
                obtain ⟨rest, isRest⟩ :=
                  ih next fun other isIn => each other (List.mem_cons_of_mem _ isIn)
                exact ⟨_, IsElements.more IsSpace.nil isValue IsSpace.nil isRest⟩
          obtain ⟨text, isElements⟩ := elements values value each
          exact ⟨_, IsValue.array isElements⟩
  | .object members => by
      have each : ∀ member ∈ members, ∃ text, IsValue text member.2 := fun member isIn => by
        have smaller := List.sizeOf_lt_of_mem isIn
        have part : sizeOf member.2 < sizeOf member := by
          obtain ⟨name, value⟩ := member
          rw [Prod.mk.sizeOf_spec]
          show sizeOf value < _
          omega
        exact exists_isValue member.2
      cases members with
      | nil => exact ⟨_, IsValue.emptyObject IsSpace.nil⟩
      | cons member members =>
          have isMembers : ∀ (members : List (List Char × Json)) (member : List Char × Json),
              (∀ other ∈ member :: members, ∃ text, IsValue text other.2) →
              ∃ text, IsMembers text (member :: members) := by
            intro members
            induction members with
            | nil =>
                intro member each
                obtain ⟨text, isValue⟩ := each member List.mem_cons_self
                obtain ⟨key, isKey, _⟩ := stringifyStringBytes_isString member.1
                exact ⟨_, IsMembers.last IsSpace.nil isKey IsSpace.nil IsSpace.nil isValue
                  IsSpace.nil⟩
            | cons next members ih =>
                intro member each
                obtain ⟨text, isValue⟩ := each member List.mem_cons_self
                obtain ⟨key, isKey, _⟩ := stringifyStringBytes_isString member.1
                obtain ⟨rest, isRest⟩ :=
                  ih next fun other isIn => each other (List.mem_cons_of_mem _ isIn)
                exact ⟨_, IsMembers.more IsSpace.nil isKey IsSpace.nil IsSpace.nil isValue
                  IsSpace.nil isRest⟩
          obtain ⟨text, isText⟩ := isMembers members member each
          exact ⟨_, IsValue.object isText (List.Perm.refl _)⟩
  termination_by value => sizeOf value
  decreasing_by
    · rw [Json.array.sizeOf_spec]
      omega
    · rw [Json.object.sizeOf_spec]
      omega

def ParsesTo (platform : Platform) (text : Bytes) (value : Json) : Prop :=
  ∃ result, haxeJsonParse platform text = .ok result ∧ Holds result value

/-- Printing any box that holds the value, with any indent of white space, and parsing
the text keeps the value, and so does parsing any of its texts. -/
structure RoundTrips (platform : Platform) (value : Json) : Prop where
  printed : ∀ (indent : Option Bytes) (slot : Dynamic), Indents indent → Holds slot value →
    ParsesTo platform (haxeJsonStringify platform indent slot) value
  parsed : ∀ text, IsText text value → ParsesTo platform text value

theorem parsesTo_iff (platform : Platform) {text : Bytes} {value : Json}
    (isText : IsText text value) (distinct : Distinct value) :
    ParsesTo platform text value ↔ Fits platform.overflowChecks value := by
  have spec := haxeJsonParse_spec platform isText distinct
  constructor
  · rintro ⟨result, isResult, holds⟩
    exact (spec.of_eq_ok isResult).mp holds
  · intro fits
    cases isResult : haxeJsonParse platform text with
    | ok result => exact ⟨result, isResult, (spec.of_eq_ok isResult).mpr fits⟩
    | error fault => exact absurd fits (spec.of_eq_error isResult)

theorem Indents.lossy {indent : Option Bytes} (indents : Indents indent) :
    Indents (indent.map Utf8.lossy) := by
  intro unit isUnit
  obtain ⟨source, isSource, rfl⟩ := Option.map_eq_some_iff.mp isUnit
  obtain ⟨text, rfl⟩ := (indents source isSource).encoded
  rw [Utf8.lossy_encode]
  exact indents _ isSource

/-- JSON text and values round trip exactly when the value fits. -/
theorem roundTrips_iff (platform : Platform) {value : Json} (distinct : Distinct value) :
    RoundTrips platform value ↔ Fits platform.overflowChecks value := by
  constructor
  · intro trips
    obtain ⟨inner, isValue⟩ := exists_isValue value
    have isText : IsText inner value :=
      ⟨[], inner, [], (List.append_nil _).symm, IsSpace.nil, isValue, IsSpace.nil⟩
    exact (parsesTo_iff platform isText distinct).mp (trips.parsed inner isText)
  · intro fits
    constructor
    · intro indent slot indents holds
      obtain ⟨text, printed, isValue⟩ := stringifyValue_isValue distinct fits slot
        ⟨[], indent.map Utf8.lossy, 0⟩ holds indents.lossy
      have isText : IsText text value :=
        ⟨[], text, [], (List.append_nil _).symm, IsSpace.nil, isValue, IsSpace.nil⟩
      rw [haxeJsonStringify, printed]
      exact (parsesTo_iff platform isText distinct).mpr fits
    · exact fun text isText => (parsesTo_iff platform isText distinct).mpr fits

/-- A build that checks arithmetic. -/
def checked : Platform := ⟨true, fun _ => 0, fun _ => []⟩

def emptyKey : List (List Char × Json) := [([], .string [])]

theorem emptyKey_roundTrips : RoundTrips checked (.object emptyKey) := by
  have distinct : ∀ member ∈ emptyKey, Distinct member.2 := by
    intro member isIn
    rw [List.mem_singleton.mp isIn]
    exact Distinct.string []
  have short : ∀ member ∈ emptyKey, (Utf8.encode member.1).length < 2 ^ 32 := by
    intro member isIn
    rw [List.mem_singleton.mp isIn]
    decide
  have fits : ∀ member ∈ emptyKey, Fits checked.overflowChecks member.2 := by
    intro member isIn
    rw [List.mem_singleton.mp isIn]
    exact Fits.string []
  have names : (emptyKey.map Prod.fst).Nodup := List.nodup_singleton []
  exact (roundTrips_iff checked (Distinct.object names distinct)).mpr (Fits.object short fits)

/-- The least integer is printed, but its text is not parsed. -/
theorem least_not_parsed : ¬ RoundTrips checked (.int (BitVec.intMin 64)) := by
  intro trips
  obtain ⟨result, isResult, _⟩ :=
    trips.printed none (.int (BitVec.intMin 64)) (fun _ isUnit => absurd isUnit (by simp))
      (Holds.int _)
  have stops : haxeJsonParse checked
      (haxeJsonStringify checked none (.int (BitVec.intMin 64))) = .error .overflow := by
    rw [haxeJsonStringify, stringifyValue]
    rfl
  rw [stops] at isResult
  exact absurd isResult (by simp)

end Rayzor.Json
