import RegionHeap.LinkPlan

/-!
# Printing a link plan

The build tool: four settings from the environment, instructions on standard
output. Without the directory of the package there is nothing to print.
-/
namespace RegionHeap.LinkPlan

/-- The plan that the environment of this process asks for. -/
def fromEnvironment : IO LinkPlan := do
  return {
    os := ← IO.getEnv "CARGO_CFG_TARGET_OS"
    architecture := ← IO.getEnv "CARGO_CFG_TARGET_ARCH"
    packageDirectory := ← IO.getEnv "CARGO_MANIFEST_DIR"
    regionRequested := ← IO.getEnv "CARGO_FEATURE_EMBEDDED" }

end RegionHeap.LinkPlan

def main : IO UInt32 := do
  let plan ← RegionHeap.LinkPlan.fromEnvironment
  match plan.text with
  | .ok text =>
    IO.print text
    return 0
  | .error failure =>
    IO.eprintln failure.message
    return 101
