import PlanLowering.Json.Record

/-! # Options of one lowering run -/

namespace PlanLowering

structure Options where
  seed : UInt64 := 0
  stackPageSize : UInt64 := 0x1000
  /-- Page that keeps control registers around the body of a test. -/
  csrStorage : String := "tp_csr_storage"
  /-- Symbol that holds the address of the shared failure handler. -/
  failedSymbol : String := "failed_addr"
  /-- Symbol that holds the address of the shared pass handler. -/
  passedSymbol : String := "passed_addr"
  deriving DecidableEq, Repr

namespace Options

def ofJson? (json : Json) : Option Options := do
  let defaults : Options := {}
  match ← json.record? ["seed", "stack_page_size", "csr_storage_name", "failed_addr_symbol",
    "passed_addr_symbol"] with
  | [seed, stackPageSize, csrStorage, failedSymbol, passedSymbol] =>
    return {
      seed := ← Json.withDefault defaults.seed Json.uint64? seed
      stackPageSize := ← Json.withDefault defaults.stackPageSize Json.uint64? stackPageSize
      csrStorage := ← Json.withDefault defaults.csrStorage Json.str? csrStorage
      failedSymbol := ← Json.withDefault defaults.failedSymbol Json.str? failedSymbol
      passedSymbol := ← Json.withDefault defaults.passedSymbol Json.str? passedSymbol }
  | _ => none

def toJson (options : Options) : Json :=
  .obj [("seed", .int options.seed.toNat), ("stack_page_size", .int options.stackPageSize.toNat),
    ("csr_storage_name", .str options.csrStorage),
    ("failed_addr_symbol", .str options.failedSymbol),
    ("passed_addr_symbol", .str options.passedSymbol)]

end Options
end PlanLowering
