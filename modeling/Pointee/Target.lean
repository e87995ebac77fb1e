/-!
# Targets

A target names the writer that a module is prepared for: an architecture, an output format and the
version of that format, written `architecture-format-version`. `Target.parse` reads exactly the
texts that `Target.text` writes, and reports the leftmost part that is missing or unsupported.
-/

namespace Pointee

/-- The instruction set a module is written for. -/
inductive Arch where
  | air32
  | air64
deriving DecidableEq

/-- The container that a module is written to. -/
inductive Format where
  | bitcode
deriving DecidableEq

/-- The version of the container, which decides how pointer types are recovered. -/
inductive Version where
  | v5
  | v7
deriving DecidableEq

/-- Where a module is going. -/
structure Target where
  arch : Arch
  format : Format
  version : Version
deriving DecidableEq

/-- Why a text names no target. -/
inductive TargetError where
  /-- A part is missing, or there are more than three. -/
  | malformed (text : String)
  | unknownArch
  | unknownFormat
  | unknownVersion
deriving DecidableEq

/-- The wording of a target error. -/
def TargetError.message : TargetError → String
  | malformed text =>
      "the format of triple must be `architecture-format-version: but got `" ++ text ++ "`"
  | unknownArch => "given architecture is not supported"
  | unknownFormat => "given output format is not supported"
  | unknownVersion => "given version is not supported"

namespace Arch

/-- The written form of an architecture. -/
def text : Arch → String
  | air32 => "air32"
  | air64 => "air64"

/-- Reads an architecture. -/
def parse (s : String) : Except TargetError Arch :=
  if s = "air32" then .ok air32
  else if s = "air64" then .ok air64
  else .error .unknownArch

end Arch

namespace Format

/-- The written form of a format. -/
def text : Format → String
  | bitcode => "bitcode"

/-- Reads a format. -/
def parse (s : String) : Except TargetError Format :=
  if s = "bitcode" then .ok bitcode else .error .unknownFormat

end Format

namespace Version

/-- The written form of a version. -/
def text : Version → String
  | v5 => "5.0"
  | v7 => "7.0"

/-- Reads a version. -/
def parse (s : String) : Except TargetError Version :=
  if s = "5.0" then .ok v5
  else if s = "7.0" then .ok v7
  else .error .unknownVersion

end Version

namespace Target

/-- The parts of a text between dashes. A text without a dash is one part. -/
def splitDashes : List Char → List (List Char)
  | [] => [[]]
  | c :: cs =>
      if c = '-' then [] :: splitDashes cs
      else
        match splitDashes cs with
        | [] => [[c]]
        | p :: ps => (c :: p) :: ps

/-- The written form of a target. -/
def text (t : Target) : String :=
  t.arch.text ++ "-" ++ t.format.text ++ "-" ++ t.version.text

/-- Reads a target. The parts are checked from left to right, and what follows the third comes
last. -/
def parse (s : String) : Except TargetError Target := do
  let parts := splitDashes s.toList
  let part (i : Nat) : Except TargetError String :=
    match parts[i]? with
    | some p => .ok (String.ofList p)
    | none => .error (.malformed s)
  let arch ← Arch.parse (← part 0)
  let format ← Format.parse (← part 1)
  let version ← Version.parse (← part 2)
  if parts.length = 3 then .ok ⟨arch, format, version⟩ else .error (.malformed s)

/-- Whether the target's format cannot represent opaque pointers. -/
def requiresTypedPointers (t : Target) : Bool :=
  match t.format with
  | .bitcode => true

end Target

end Pointee
