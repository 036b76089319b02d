/-!
# Http — what a request handler throws
-/

namespace Marketplace

/-- An exception: one of the HTTP exceptions, or an error that ends as a 500. -/
inductive Thrown where
  | http (status : Nat) (message : String)
  | error (message : String)
deriving DecidableEq, Repr

end Marketplace
