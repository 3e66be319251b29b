/-!
# Fresh names

The receiver and the loop variable of a generated method are named so that no parameter hides them
and they hide no parameter.
-/

namespace Multicast

/-- The preferred name if it is free, or else with the least number behind it that makes it free.
Among one more candidates than there are taken names, one is free. -/
def freshName (preferred : String) (taken : List String) : String :=
  if preferred ∈ taken then
    let candidates := (List.range (taken.length + 1)).map fun n => preferred ++ toString (n + 1)
    (candidates.find? (· ∉ taken)).getD preferred
  else preferred

end Multicast
