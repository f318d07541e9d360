import LetML.Proofs.Patterns
import LetML.Proofs.ValueTyping

namespace LetML

variable {Γ : TypeEnv} {ρ : Env} {store store' : Store} {x : String} {i : Nat}

end LetML
