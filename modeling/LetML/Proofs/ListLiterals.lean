import LetML.Proofs.Computation
import LetML.Proofs.NestedLet

namespace LetML

variable {Γ : TypeEnv} {ρ : Env} {store : Store} {e e' : Expr} {es : List Expr} {t : Ty}

def Expr.chain (es : List Expr) : Expr := es.foldr cons nil

end LetML
