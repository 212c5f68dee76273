import HostScript.Host.Definition
/-!
# Results

A result is a growing row of samples, defined by the fields

    id,name,flags,description,type,block_size,segment_size,significant_bits,offset

Clients ask for ranges of samples that are not there yet; such a request is pending until there are
enough samples.
-/

namespace HostScript

open HostScript.Text

/-- The type of samples. -/
inductive SampleType where
  | invalid
  | string
  | int8
  | int16
  | int32
  | int64
deriving Repr, DecidableEq, Inhabited

namespace SampleType

def name : SampleType → String
  | .invalid => "INVALID"
  | .string => "STRING"
  | .int8 => "INT8"
  | .int16 => "INT16"
  | .int32 => "INT32"
  | .int64 => "INT64"

/-- The type of a name in any case; an unknown name means `invalid`. -/
def ofName (name : String) : SampleType :=
  let upper := toUpper (trim name)
  ([.string, .int8, .int16, .int32, .int64].find? fun ty => ty.name == upper).getD .invalid

def bits : SampleType → Nat
  | .int8 => 8
  | .int16 => 16
  | .int32 => 32
  | .int64 => 64
  | .invalid | .string => 0

end SampleType

structure ResultDefinition where
  id : Int64
  name : String
  flags : ResultFlags
  description : String
  type : SampleType
  blockSize : Nat
  segmentSize : Nat
  significantBits : Nat
  /-- What is taken from every sample when it is read. -/
  offset : Int64
deriving Repr

namespace ResultDefinition

/-- A count; what is no number or negative counts as zero. -/
def readCount (field : String) : Nat :=
  match readId field with
  | .ok n => n.toInt.toNat
  | .error _ => 0

/-- The significant bits: as many as are asked for, in 32 bits, but no more than the type has. -/
def readBits (field : String) (ty : SampleType) : Nat :=
  let wanted := readCount field % 0x100000000
  if wanted = 0 then ty.bits else min wanted ty.bits

def readOffset (field : String) : Int64 :=
  match readId field with
  | .ok n => n
  | .error _ => 0

def parse (csv : String) : Except DefinitionError ResultDefinition := do
  let fields := definitionFields csv
  let field := fun i => fields.getD i ""
  let id ← readOwnId (field 0)
  let ty := SampleType.ofName (field 4)
  return {
    id
    name := field 1
    flags := .ofLetters (field 2)
    description := unescape (field 3)
    type := ty
    blockSize := max (readCount (field 5)) 1
    segmentSize := readCount (field 6)
    significantBits := readBits (field 7) ty
    offset := readOffset (field 8) }

end ResultDefinition

/-- Samples that a link asked for. -/
structure Request where
  link : Nat
  offset : Nat
  size : Nat
deriving Repr, DecidableEq

structure Result where
  definition : ResultDefinition
  samples : List Int64
  pending : List Request
deriving Repr

namespace Result

def ofDefinition (d : ResultDefinition) : Result := ⟨d, [], []⟩

def id (r : Result) : Int64 := r.definition.id

def name (r : Result) (levels : Int) : String := pathAt levels r.definition.name

/-- How many values samples can have, zero if that says nothing. -/
def valueRange (r : Result) : Int64 :=
  let bits := r.definition.significantBits
  if 1 ≤ bits ∧ bits ≤ 62 then Int64.ofNat (Nat.pow 2 bits) else 0

def count (r : Result) : Nat := r.samples.length

/-- A sample without the offset. -/
def sample? (r : Result) (index : Nat) : Option Int64 :=
  r.samples[index]?.map (· - r.definition.offset)

/-- Whether all samples of a range are there. -/
def covers (r : Result) (offset size : Nat) : Bool := offset + size ≤ r.count

/-- Adds samples, and takes out the requests that are covered now. -/
def append (r : Result) (samples : List Int64) : Result × List Request :=
  let r := { r with samples := r.samples ++ samples }
  let (done, pending) := r.pending.partition fun q => r.covers q.offset q.size
  ({ r with pending := pending }, done)

def clear (r : Result) : Result := { r with samples := [] }

/-- Adds a request that is not pending already. -/
def ask (r : Result) (q : Request) : Result :=
  if r.pending.contains q then r else { r with pending := r.pending ++ [q] }

/-- Drops the requests of a link. -/
def forget (r : Result) (link : Nat) : Result :=
  { r with pending := r.pending.filter (·.link ≠ link) }

end Result

end HostScript
