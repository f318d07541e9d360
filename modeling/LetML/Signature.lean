import LetML.Expr
import LetML.Ty

namespace LetML

def Lit.ty : Lit → Ty
  | int _ => .int
  | bool _ => .bool

namespace BinOp

def operandTy : BinOp → Ty
  | and | or => .bool
  | _ => .int

def resultTy : BinOp → Ty
  | add | sub | mul => .int
  | _ => .bool

end BinOp

end LetML
