import Pointee.Descriptor

/-!
# Configuration

How the pointer types of a module are recovered. The target's version decides the strategy: the
newer writer has every pointer marked, the older one has them inferred.
-/

namespace Pointee

/-- How pointer types are recovered. -/
inductive Strategy where
  /-- Wrap every pointer with a marker, then read the descriptors off the marked sites. -/
  | eager
  /-- Infer descriptors, then patch only the sites that disagree. -/
  | analytical
deriving DecidableEq

/-- The settings of a run. -/
structure Config where
  strategy : Strategy
  /-- The symbol of the table that registers constructors. -/
  ctorTable : String
  /-- The pointee of a pointer about which nothing is known. -/
  fallback : Ty
  /-- Whether marker coverage is checked before descriptors are read off. -/
  checkMarkers : Bool

namespace Config

/-- The settings that go with a strategy. -/
def ofStrategy (strategy : Strategy) : Config :=
  { strategy
    ctorTable := "llvm.global_ctors"
    fallback := .i8
    checkMarkers := strategy = .eager }

/-- The settings that go with a target. -/
def ofTarget (target : Target) : Config :=
  match target.version with
  | .v5 => ofStrategy .analytical
  | .v7 => ofStrategy .eager

instance : Inhabited Config := ⟨ofStrategy .eager⟩

/-- The descriptor of a pointer about which nothing is known. -/
def fallbackIn (config : Config) (space : AddrSpace) : Descriptor := ⟨config.fallback, space⟩

/-- Whether coverage is checked. There are markers under the eager strategy only. -/
def shouldCheckMarkers (config : Config) : Bool :=
  config.checkMarkers && config.strategy = .eager

end Config

end Pointee
