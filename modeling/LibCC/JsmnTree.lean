import Mathlib

/-! JSON trees, the tokens of jsmn, and the token arrays that stand for a tree. -/

namespace LibCC

/-- The types of the tokens whose text cc_jsmnWrapper_step copies. -/
inductive JsmnLeaf
  | undefined | string | primitive
  deriving DecidableEq, Repr

/-- jsmntype_t -/
inductive JsmnType
  | object | array | leaf (type : JsmnLeaf)
  deriving DecidableEq, Repr

/-- jsmntok_t; `start` and `stop` are its fields start and end. -/
structure JsmnTok where
  type : JsmnType
  start : Int
  stop : Int
  size : Int
  deriving DecidableEq, Repr

inductive JsmnTree
  | object (members : List (List UInt8 × JsmnTree))
  | array (elements : List JsmnTree)
  | leaf (type : JsmnLeaf) (bytes : List UInt8)

/-- `bytes` stand in the text from `start` on. -/
def Covers (str : List UInt8) : Int → List UInt8 → Prop
  | _, [] => True
  | start, byte :: bytes =>
    0 ≤ start ∧ str[start.toNat]? = some byte ∧ Covers str (start + 1) bytes

/-- The token delimits `bytes` in the text. -/
def Delimits (str : List UInt8) (tok : JsmnTok) (bytes : List UInt8) : Prop :=
  tok.stop = tok.start + bytes.length ∧ Covers str tok.start bytes

mutual

/-- The tokens are the preorder of the tree. -/
def Flattens (str : List UInt8) : JsmnTree → List JsmnTok → Prop
  | .object members, toks => ∃ tok rest, toks = tok :: rest ∧ tok.type = .object ∧
      tok.size = members.length ∧ FlattensMembers str members rest
  | .array elements, toks => ∃ tok rest, toks = tok :: rest ∧ tok.type = .array ∧
      tok.size = elements.length ∧ FlattensElements str elements rest
  | .leaf type bytes, toks => ∃ tok, toks = [tok] ∧ tok.type = .leaf type ∧ Delimits str tok bytes

def FlattensMembers (str : List UInt8) : List (List UInt8 × JsmnTree) → List JsmnTok → Prop
  | [], toks => toks = []
  | (key, tree) :: members, toks => ∃ tok val rest, toks = tok :: val ++ rest ∧
      tok.type = .leaf .string ∧ Delimits str tok key ∧ Flattens str tree val ∧
      FlattensMembers str members rest

def FlattensElements (str : List UInt8) : List JsmnTree → List JsmnTok → Prop
  | [], toks => toks = []
  | tree :: elements, toks => ∃ val rest, toks = val ++ rest ∧ Flattens str tree val ∧
      FlattensElements str elements rest

end

theorem Flattens.ne_nil {str : List UInt8} {tree : JsmnTree} {toks : List JsmnTok}
    (h : Flattens str tree toks) : toks ≠ [] := by
  cases tree with
  | object members =>
    obtain ⟨tok, rest, rfl, -⟩ := h
    exact List.cons_ne_nil _ _
  | array elements =>
    obtain ⟨tok, rest, rfl, -⟩ := h
    exact List.cons_ne_nil _ _
  | leaf type bytes =>
    obtain ⟨tok, rfl, -⟩ := h
    exact List.cons_ne_nil _ _

end LibCC
