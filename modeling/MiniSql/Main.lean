import MiniSql.Demo

/-!
# The command

Runs the demonstration with the claim policy that the environment sets, prints its report, and logs
to the standard error.
-/

/-- Runs the demonstration. -/
def main : IO UInt32 := do
  let outcome := MiniSql.Demo.run (← IO.getEnv MiniSql.ClaimPolicy.settingName)
  for line in outcome.log do
    IO.eprintln line.render
  IO.print outcome.text
  return UInt32.ofNat outcome.exit
