import PlanLowering.Json.Record
import PlanLowering.Text.FlagList

/-! # Page reservations

What a plan asks for when it reserves data or code pages.
-/

namespace PlanLowering

inductive PageSize where
  | kib4 | mib2 | gib1 | gib512
  deriving DecidableEq, Repr

namespace PageSize

def bytes : PageSize → Nat
  | .kib4 => 0x1000
  | .mib2 => 0x20_0000
  | .gib1 => 0x4000_0000
  | .gib512 => 0x80_0000_0000

def choices : List (String × PageSize) :=
  [("4k", .kib4), ("2m", .mib2), ("1g", .gib1), ("512g", .gib512)]

def name : PageSize → String
  | .kib4 => "4k"
  | .mib2 => "2m"
  | .gib1 => "1g"
  | .gib512 => "512g"

end PageSize

/-- Permissions of a page. Bits without a name are kept. -/
structure PageFlags where
  bits : UInt8
  deriving DecidableEq, Repr

namespace PageFlags

def names : Text.FlagNames where
  width := 8
  names := [("READ", 1), ("WRITE", 2), ("EXECUTE", 4), ("USER", 8)]

def read : PageFlags := ⟨1⟩
def readWrite : PageFlags := ⟨3⟩

def ofText? (s : String) : Option PageFlags :=
  (names.read? s).map fun bits => ⟨UInt8.ofNat bits⟩

def text (flags : PageFlags) : String := names.write flags.bits.toNat

end PageFlags

structure PageSpec where
  size : UInt64 := 0x1000
  pageSize : PageSize := .kib4
  flags : PageFlags := .readWrite
  pageCount : UInt32 := 1
  /-- Accesses may straddle the boundary of two pages. -/
  crossing : Bool := false
  modified : Bool := false
  deriving DecidableEq, Repr

namespace PageSpec

def keys : List String :=
  ["size", "page_size", "flags", "num_pages", "page_cross_en", "modify"]

def ofFields? (size? : Json → Option PageSize) : List (Option Json) → Option PageSpec
  | [size, pageSize, flags, pageCount, crossing, modified] => do
    return {
      size := ← Json.withDefault 0x1000 Json.uint64? size
      pageSize := ← Json.withDefault .kib4 size? pageSize
      flags := ← Json.withDefault .readWrite (fun j => j.str?.bind PageFlags.ofText?) flags
      pageCount := ← Json.withDefault 1 Json.uint32? pageCount
      crossing := ← Json.withDefault false Json.bool? crossing
      modified := ← Json.withDefault false Json.bool? modified }
  | _ => none

def ofJson? (json : Json) : Option PageSpec :=
  (json.record? keys).bind (ofFields? (Json.choice? PageSize.choices))

def toFields (spec : PageSpec) : List (String × Json) :=
  [("size", .int spec.size.toNat), ("page_size", .str spec.pageSize.name),
    ("flags", .str spec.flags.text), ("num_pages", .int spec.pageCount.toNat),
    ("page_cross_en", .bool spec.crossing), ("modify", .bool spec.modified)]

end PageSpec
end PlanLowering
