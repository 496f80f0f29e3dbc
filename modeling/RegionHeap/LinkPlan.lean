/-!
# Link plan

Before the library is compiled, a build tool reads four settings from its
environment and prints instructions for the compiler and the linker: which
configuration names exist, whether the heap is bound to the growing region, and
which symbols a shared library exports. The region is chosen on request, and
always on a bare WebAssembly target, which has no allocator of its own.
-/
namespace RegionHeap

/-- What the build tool reads. -/
structure LinkPlan where
  os : Option String := none
  architecture : Option String := none
  packageDirectory : Option String := none
  /-- Present, with any value, if the region was asked for. -/
  regionRequested : Option String := none
deriving Repr, DecidableEq

namespace LinkPlan

/-- Why there is no plan. -/
inductive Failure where
  | packageDirectoryUnset
deriving Repr, DecidableEq

/-- What the build tool says instead of a plan. -/
def Failure.message : Failure → String
  | packageDirectoryUnset => "called `Result::unwrap()` on an `Err` value: NotPresent"

/-- A WebAssembly target without a system interface. -/
def isBare (plan : LinkPlan) : Bool :=
  plan.architecture.getD "" == "wasm32" && plan.os.getD "" != "wasi"

def bindsRegion (plan : LinkPlan) : Bool :=
  plan.regionRequested.isSome || plan.isBare

/-- The instructions about exported symbols; only one linker is given a script. -/
def exportLines (plan : LinkPlan) (directory : String) : List String :=
  if plan.os.getD "" == "linux" then
    ["cargo:rustc-cdylib-link-arg=-Wl,--version-script=" ++ directory ++
        "/linker/version_script.lds",
      "cargo:rerun-if-changed=linker/version_script.lds"]
  else
    []

/-- The instructions in the order in which they are printed. -/
def lines (plan : LinkPlan) : Except Failure (List String) :=
  match plan.packageDirectory with
  | none => .error .packageDirectoryUnset
  | some directory =>
    .ok <|
      ["cargo:rustc-check-cfg=cfg(embedded_backend)"] ++
      (if plan.bindsRegion then ["cargo:rustc-cfg=embedded_backend"] else []) ++
      plan.exportLines directory ++
      ["cargo:rerun-if-changed=build.rs"]

/-- The printed text: every instruction ends its line. -/
def text (plan : LinkPlan) : Except Failure String := do
  return String.join ((← plan.lines).map (· ++ "\n"))

end LinkPlan

end RegionHeap
