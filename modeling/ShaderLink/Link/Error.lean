import ShaderLink.Fault
import ShaderLink.Resolution.Resolve

/-!
# Link errors

Linking fails if something that is needed is broken or not clear. What is only missing is reported
by a warning and left as it is written.
-/

namespace ShaderLink

/-- Why modules cannot be linked. -/
inductive LinkError where
  /-- There is no module to start with. -/
  | rootNotFound (module : ModulePath)
  | broken (module : BrokenModule)
  /-- A reference in a module has several meanings. -/
  | ambiguous (module : ModulePath) (reference : String) (candidates : List String)
  | fault (fault : Fault)
  /-- The declarations led to more and more others. -/
  | unfinished

/-- The error in words. -/
def LinkError.message : LinkError → String
  | rootNotFound module => "module `" ++ module.render ++ "` not found"
  | broken b => "module `" ++ b.module.render ++ "` failed to parse: " ++ b.error.render
  | ambiguous module reference candidates =>
    "`" ++ reference ++ "` in module `" ++ module.render ++ "` is ambiguous, it could be " ++
      " or ".intercalate candidates
  | fault f => f.message?.getD "a span cuts a character"
  | unfinished => "the declarations needed do not come to an end"

end ShaderLink
