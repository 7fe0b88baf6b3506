import HakunaMatata.Base.JavaBytes

/-!
# What the Java decoders share, `Decoder.java`

A decoder finds the type of a message by its full name: as a prototype that was registered, or as
a descriptor that was loaded. `parse` builds the message from its data. The protobuf runtime is
a parameter `Runtime`, and `Lawful` states what is assumed of it: parsing the serialized data of a
message gives the message, and a message built without data is the one parsed from no data.
-/

namespace HakunaMatata.Protobuf

open Base Base.Java

/-- The texts of `DecodeError`. -/
inductive DecodeError where
  | lenBeyondLimit
  | lenTooSmall
  | nameLenBeyondLimit
  | nameLenTooSmall
  | unsupportedVersion
  | failedParseName
  | failedParseData
  | restByteLTNameLen
  | restByteLTDataLen
  deriving DecidableEq, Repr

/-- The message of an error. -/
def DecodeError.text : DecodeError → String
  | .lenBeyondLimit => "byte total length beyond limit"
  | .lenTooSmall => "total length is too small"
  | .nameLenBeyondLimit => "name length beyond limit"
  | .nameLenTooSmall => "name length less than or equal to zero"
  | .unsupportedVersion => "unsupported version"
  | .failedParseName => "invalid protobuf name"
  | .failedParseData => "invalid protobuf data"
  | .restByteLTNameLen => "rest readable bytes less than name len"
  | .restByteLTDataLen => "rest readable bytes less than data len"

/-- `throw new IllegalArgumentException`. -/
def DecodeError.throw {α : Type*} (error : DecodeError) : Except Thrown α :=
  .error (.illegalArgument error.text)

/-- The protobuf runtime, for messages `M` and descriptors `D`. A parser gives `none` where the
runtime throws `InvalidProtocolBufferException`. `newString` is `new String(bytes, "utf-8")`. -/
structure Runtime (M D : Type) where
  fullName : M → String
  toByteArray : M → List UInt8
  parseFrom : M → List UInt8 → Option M
  newMessage : M → M
  parseDynamic : D → List UInt8 → Option M
  newDynamic : D → M
  newString : List UInt8 → String

/-- The fields of `Decoder`. -/
structure Decoder (M D : Type) where
  messageMap : String → Option M
  descriptors : String → Option D
  totalLenLimit : Int := 4096
  nameLenLimit : Int := 128

variable {M D : Type} (runtime : Runtime M D) (decoder : Decoder M D)

/-- The result of a parser, or the error for invalid data. -/
def parsed (result : Option M) : Except Thrown M :=
  result.elim DecodeError.failedParseData.throw .ok

/-- `CreateDynamicMessage`. Missing data is `none`. -/
def createDynamicMessage (name : String) (data : Option (List UInt8)) : Except Thrown M :=
  (decoder.descriptors name).elim DecodeError.failedParseName.throw fun desc =>
    if (data.getD []).length > 0 then parsed (runtime.parseDynamic desc (data.getD []))
    else .ok (runtime.newDynamic desc)

/-- `Parse`. Missing data is `none`. -/
def parse (name : String) (data : Option (List UInt8)) : Except Thrown M :=
  (decoder.messageMap name).elim (createDynamicMessage runtime decoder name data) fun prototype =>
    data.elim (.ok (runtime.newMessage prototype)) fun bytes =>
      parsed (runtime.parseFrom prototype bytes)

/-- `AddProtoType`. -/
def addProtoType (message : M) : Decoder M D :=
  { decoder with messageMap :=
      Function.update decoder.messageMap (runtime.fullName message) (some message) }

/-- The type of the message is known to the decoder. -/
def Registered (message : M) : Prop :=
  (decoder.messageMap (runtime.fullName message)).isSome ∨
    (decoder.descriptors (runtime.fullName message)).isSome

/-- What is assumed of the runtime: what is registered under the name of a message parses its
data. -/
structure Lawful : Prop where
  parseFrom : ∀ message prototype,
    decoder.messageMap (runtime.fullName message) = some prototype →
      runtime.parseFrom prototype (runtime.toByteArray message) = some message
  newMessage : ∀ message prototype, runtime.parseFrom prototype [] = some message →
    runtime.newMessage prototype = message
  parseDynamic : ∀ message desc, decoder.messageMap (runtime.fullName message) = none →
    decoder.descriptors (runtime.fullName message) = some desc →
      runtime.parseDynamic desc (runtime.toByteArray message) = some message
  newDynamic : ∀ message desc, runtime.parseDynamic desc [] = some message →
    runtime.newDynamic desc = message
  newString : ∀ name, Ascii name → runtime.newString (utf8 name) = name

/-- The limits of a decoder as it is constructed. -/
def DefaultLimits : Prop :=
  decoder.totalLenLimit = 4096 ∧ decoder.nameLenLimit = 128

/-- A message that may be sent in a frame with this many bytes besides the name and the data: its
type is registered, its name is ASCII of 1 to 128 characters, and the frame has at most 4096
bytes. -/
structure Allowed (overhead : Nat) (message : M) : Prop where
  registered : Registered runtime decoder message
  ascii : Ascii (runtime.fullName message)
  name_pos : 1 ≤ length16 (runtime.fullName message)
  name_le : length16 (runtime.fullName message) ≤ 128
  size_le : overhead + length16 (runtime.fullName message) +
    (runtime.toByteArray message).length ≤ 4096

variable {runtime decoder}

/-- A registered message is parsed from its name and its data; no data is passed as such. -/
theorem parse_toByteArray (hlawful : Lawful runtime decoder) {message : M}
    (hregistered : Registered runtime decoder message) {data : Option (List UInt8)}
    (hdata : data.getD [] = runtime.toByteArray message) :
    parse runtime decoder (runtime.fullName message) data = .ok message := by
  unfold parse
  cases hmap : decoder.messageMap (runtime.fullName message) with
  | some prototype =>
    have hparse := hlawful.parseFrom message prototype hmap
    rw [← hdata] at hparse
    cases data with
    | none => exact congrArg Except.ok (hlawful.newMessage message prototype hparse)
    | some bytes =>
      rw [Option.getD_some] at hparse
      simp only [Option.elim_some, hparse, parsed]
  | none =>
    have hsome : (decoder.descriptors (runtime.fullName message)).isSome :=
      hregistered.resolve_left (by simp [hmap])
    obtain ⟨desc, hdesc⟩ := Option.isSome_iff_exists.mp hsome
    have hparse := hlawful.parseDynamic message desc hmap hdesc
    rw [← hdata] at hparse
    simp only [Option.elim_none, createDynamicMessage, hdesc, Option.elim_some]
    by_cases hlen : (data.getD []).length > 0
    · rw [if_pos hlen, hparse, parsed, Option.elim_some]
    · have hempty : data.getD [] = [] := List.length_eq_zero_iff.mp (by omega)
      rw [hempty] at hparse
      rw [if_neg hlen, hlawful.newDynamic message desc hparse]

/-- A message whose prototype was added is registered. -/
theorem registered_addProtoType (prototype : M) {message : M}
    (h : runtime.fullName message = runtime.fullName prototype) :
    Registered runtime (addProtoType runtime decoder prototype) message := by
  left
  simp [addProtoType, h]

/-! ## A runtime for messages that are a name and bytes -/

/-- A message that is the name of its type and its data. -/
structure Plain where
  name : String
  data : List UInt8
  deriving DecidableEq, Repr

/-- The runtime of such messages: the data is not interpreted. Texts are ASCII. -/
def plainRuntime : Runtime Plain Empty where
  fullName := Plain.name
  toByteArray := Plain.data
  parseFrom prototype bytes := some ⟨prototype.name, bytes⟩
  newMessage prototype := ⟨prototype.name, []⟩
  parseDynamic _ _ := none
  newDynamic := Empty.elim
  newString := asciiString

/-- A decoder with one prototype. -/
def plainDecoder (name : String) : Decoder Plain Empty :=
  addProtoType plainRuntime ⟨fun _ => none, fun _ => none, 4096, 128⟩ ⟨name, []⟩

/-- A decoder with one prototype finds it under its name only. -/
theorem plainDecoder_lawful (name : String) : Lawful plainRuntime (plainDecoder name) where
  parseFrom message prototype h := by
    simp only [plainDecoder, addProtoType, Function.update_apply, plainRuntime] at h ⊢
    split at h
    · next hname =>
        obtain rfl := Option.some.inj h
        rw [← hname]
    · cases h
  newMessage message prototype h := Option.some.inj h
  parseDynamic _ desc := desc.elim
  newDynamic _ desc := desc.elim
  newString _ h := asciiString_utf8 h

/-- Messages of the registered type may be sent as far as their data is short enough. -/
theorem plainDecoder_allowed {name : String} {overhead : Nat} {data : List UInt8}
    (hascii : Ascii name) (hpos : 1 ≤ length16 name) (hle : length16 name ≤ 128)
    (hsize : overhead + length16 name + data.length ≤ 4096) :
    Allowed plainRuntime (plainDecoder name) overhead ⟨name, data⟩ :=
  ⟨registered_addProtoType _ rfl, hascii, hpos, hle, hsize⟩

end HakunaMatata.Protobuf
