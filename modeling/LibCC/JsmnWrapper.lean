import LibCC.BlockLedger
import LibCC.JsmnTree
import LibCC.StateProgram

/-! The reader of cc_jsmnWrapper.c: the wrapper, its cursor over the tokens,
and the constructors and destructors of the values. The iters of a list are
blocks that the list owns. -/

namespace LibCC

/-- A char array that was allocated; the NUL that ends it is left out. -/
structure JsmnStr where
  addr : Nat
  bytes : List UInt8
  deriving DecidableEq, Repr

/-- cc_jsmnObject_t or cc_jsmnArray_t with its list: an iter and the member it holds. -/
structure JsmnContainer (α : Type) where
  addr : Nat
  listAddr : Nat
  list : List (Nat × α)

mutual

/-- cc_jsmnVal_t -/
inductive JsmnVal
  | object (addr : Nat) (obj : JsmnContainer JsmnKeyval)
  | array (addr : Nat) (array : JsmnContainer JsmnVal)
  | data (addr : Nat) (type : JsmnLeaf) (data : JsmnStr)

/-- cc_jsmnKeyval_t -/
inductive JsmnKeyval
  | mk (addr : Nat) (key : JsmnStr) (val : JsmnVal)

end

/-- The part of cc_jsmnWrapper_t that is fixed once it is built. -/
structure JsmnWrapper where
  str : List UInt8
  count : Nat
  tokens : List JsmnTok
  filled : tokens.length = count

/-- The heap, and jw->pos. -/
structure JsmnState where
  heap : Ledger
  pos : Nat

/-- A token is read at or past jw->count, a byte outside of the text, a block
is freed that is not live, or the recursion is not at its end. -/
inductive JsmnFault
  | token | text | free | fuel
  deriving DecidableEq, Repr

abbrev JsmnM := StateT JsmnState (Except JsmnFault)

/-- CALLOC, and the iter of a cc_list_append: `grants` tells which requests are met. -/
def jsmnCalloc (grants : Nat → Bool) : JsmnM (Option Nat) := do
  let s ← get
  if grants s.heap.requests then
    set { s with heap := s.heap.grant }
    return some s.heap.requests
  else
    set { s with heap := s.heap.refuse }
    return none

/-- FREE -/
def jsmnFree (block : Nat) : JsmnM Unit := do
  let s ← get
  if block ∈ s.heap.live then
    set { s with heap := s.heap.release block }
  else
    throw .free

mutual

def jsmnValDelete : JsmnVal → JsmnM Unit
  | .object addr obj => do
    jsmnObjectDelete obj
    jsmnFree addr
  | .array addr array => do
    jsmnArrayDelete array
    jsmnFree addr
  | .data addr _ data => do
    jsmnFree data.addr
    jsmnFree addr

def jsmnKeyvalDelete : JsmnKeyval → JsmnM Unit
  | .mk addr key val => do
    jsmnValDelete val
    jsmnFree key.addr
    jsmnFree addr

def jsmnObjectDelete : JsmnContainer JsmnKeyval → JsmnM Unit
  | ⟨addr, listAddr, list⟩ => do
    jsmnKeyvalsDelete list
    jsmnFree listAddr
    jsmnFree addr

def jsmnArrayDelete : JsmnContainer JsmnVal → JsmnM Unit
  | ⟨addr, listAddr, list⟩ => do
    jsmnValsDelete list
    jsmnFree listAddr
    jsmnFree addr

/-- The loop over the list: cc_list_remove, then the destructor of what it returned. -/
def jsmnKeyvalsDelete : List (Nat × JsmnKeyval) → JsmnM Unit
  | [] => return
  | (iter, kv) :: list => do
    jsmnFree iter
    jsmnKeyvalDelete kv
    jsmnKeyvalsDelete list

def jsmnValsDelete : List (Nat × JsmnVal) → JsmnM Unit
  | [] => return
  | (iter, v) :: list => do
    jsmnFree iter
    jsmnValDelete v
    jsmnValsDelete list

end

namespace JsmnWrapper

variable (jw : JsmnWrapper) (grants : Nat → Bool)

def readToken (i : Nat) : JsmnM JsmnTok :=
  match jw.tokens[i]? with
  | some tok => return tok
  | none => throw .token

def readByte (i : Int) : JsmnM UInt8 :=
  if i < 0 then throw .text
  else
    match jw.str[i.toNat]? with
    | some byte => return byte
    | none => throw .text

/-- The loop of cc_jsmnWrapper_step that copies `len` bytes. -/
def copy : Nat → Int → JsmnM (List UInt8)
  | 0, _ => return []
  | len + 1, start => do
    let byte ← jw.readByte start
    let bytes ← copy len (start + 1)
    return byte :: bytes

end JsmnWrapper

/-- The token that cc_jsmnWrapper_step returns, and its data where it copies any. -/
inductive JsmnStepped
  | container (tok : JsmnTok)
  | leaf (type : JsmnLeaf) (data : JsmnStr)

section Wrap

variable (grants : Nat → Bool) (jw : JsmnWrapper)

def jsmnWrapperStep : JsmnM (Option JsmnStepped) := do
  let s ← get
  if jw.count ≤ s.pos then
    return none
  let tok ← jw.readToken s.pos
  match tok.type with
  | .leaf type =>
    -- the length is a size_t: an end before the start asks for bytes that are not there
    if tok.stop < tok.start then
      throw .text
    let some addr ← jsmnCalloc grants | return none
    let bytes ← jw.copy (tok.stop - tok.start).toNat tok.start
    modify fun s => { s with pos := s.pos + 1 }
    return some (.leaf type ⟨addr, bytes⟩)
  | _ =>
    modify fun s => { s with pos := s.pos + 1 }
    return some (.container tok)

def jsmnWrapperPeek : JsmnM (Option JsmnTok) := do
  let s ← get
  if jw.count ≤ s.pos then
    return none
  let tok ← jw.readToken s.pos
  return some tok

/-- The loop of cc_jsmnObject_wrap and cc_jsmnArray_wrap, with `n` members
left and those of `list` appended: fail_append deletes the member that was not
appended, fail_kv and fail_val those of the list. -/
def jsmnContainerLoop {α : Type} (wrap : JsmnM (Option α)) (delete : α → JsmnM Unit)
    (clear : List (Nat × α) → JsmnM Unit) : Nat → List (Nat × α) → JsmnM (Option (List (Nat × α)))
  | 0, list => return some list
  | n + 1, list => do
    match ← wrap with
    | none => do
      clear list
      return none
    | some member => do
      match ← jsmnCalloc grants with
      | none => do
        delete member
        clear list
        return none
      | some iter => jsmnContainerLoop wrap delete clear n (list ++ [(iter, member)])

/-- cc_jsmnObject_wrap and cc_jsmnArray_wrap, which differ in the token that
they ask for and in what they do with a member. -/
def jsmnContainerWrap {α : Type} (type : JsmnType) (wrap : JsmnM (Option α))
    (delete : α → JsmnM Unit) (clear : List (Nat × α) → JsmnM Unit) :
    JsmnM (Option (JsmnContainer α)) := do
  let some self ← jsmnCalloc grants | return none
  let some list ← jsmnCalloc grants |
    jsmnFree self
    return none
  match ← jsmnWrapperStep grants jw with
  | none => do
    jsmnFree list
    jsmnFree self
    return none
  | some (.leaf _ data) => do
    jsmnFree data.addr
    jsmnFree list
    jsmnFree self
    return none
  | some (.container tok) => do
    if tok.type ≠ type then
      jsmnFree list
      jsmnFree self
      return none
    match ← jsmnContainerLoop grants wrap delete clear tok.size.toNat [] with
    | none => do
      jsmnFree list
      jsmnFree self
      return none
    | some members => return some ⟨self, list, members⟩

mutual

def jsmnObjectWrap : Nat → JsmnM (Option (JsmnContainer JsmnKeyval))
  | 0 => throw .fuel
  | fuel + 1 =>
    jsmnContainerWrap grants jw .object (jsmnKeyvalWrap fuel) jsmnKeyvalDelete jsmnKeyvalsDelete

def jsmnArrayWrap : Nat → JsmnM (Option (JsmnContainer JsmnVal))
  | 0 => throw .fuel
  | fuel + 1 =>
    jsmnContainerWrap grants jw .array (jsmnValWrap fuel) jsmnValDelete jsmnValsDelete

def jsmnValWrap : Nat → JsmnM (Option JsmnVal)
  | 0 => throw .fuel
  | fuel + 1 => do
    let some self ← jsmnCalloc grants | return none
    let some tok ← jsmnWrapperPeek jw |
      jsmnFree self
      return none
    match tok.type with
    | .object => do
      match ← jsmnObjectWrap fuel with
      | none => do
        jsmnFree self
        return none
      | some obj => return some (.object self obj)
    | .array => do
      match ← jsmnArrayWrap fuel with
      | none => do
        jsmnFree self
        return none
      | some array => return some (.array self array)
    | .leaf type => do
      match ← jsmnWrapperStep grants jw with
      | some (.leaf _ data) => return some (.data self type data)
      | _ => do
        jsmnFree self
        return none

def jsmnKeyvalWrap : Nat → JsmnM (Option JsmnKeyval)
  | 0 => throw .fuel
  | fuel + 1 => do
    let some self ← jsmnCalloc grants | return none
    match ← jsmnWrapperStep grants jw with
    | none => do
      jsmnFree self
      return none
    | some (.container _) => do
      jsmnFree self
      return none
    | some (.leaf type key) => do
      if type ≠ .string then
        jsmnFree key.addr
        jsmnFree self
        return none
      match ← jsmnValWrap fuel with
      | none => do
        jsmnFree key.addr
        jsmnFree self
        return none
      | some val => return some (.mk self key val)

end

end Wrap

/-- What the two calls of jsmn_parse return, and the token that the second one
leaves at each index. -/
structure JsmnParse where
  first : Int
  second : Int
  fill : Nat → JsmnTok

/-- cc_jsmnWrapper_t as it was allocated. -/
structure JsmnWrapperPtr where
  addr : Nat
  tokensAddr : Nat
  jw : JsmnWrapper

/-- The calls of the wrap functions nest at most so deep, as no token is read twice. -/
def JsmnWrapper.fuel (jw : JsmnWrapper) : Nat := 3 * jw.count + 1

def jsmnWrapperNew (grants : Nat → Bool) (parse : JsmnParse) (str : List UInt8) :
    JsmnM (Option JsmnWrapperPtr) := do
  let some self ← jsmnCalloc grants | return none
  if parse.first ≤ 0 then
    jsmnFree self
    return none
  let some tokens ← jsmnCalloc grants |
    jsmnFree self
    return none
  if parse.first ≠ parse.second then
    jsmnFree tokens
    jsmnFree self
    return none
  modify fun s => { s with pos := 0 }
  return some ⟨self, tokens, str, parse.first.toNat,
    (List.range parse.first.toNat).map parse.fill, by simp⟩

def jsmnWrapperDelete (self : JsmnWrapperPtr) : JsmnM Unit := do
  jsmnFree self.tokensAddr
  jsmnFree self.addr

def jsmnValNew (grants : Nat → Bool) (parse : JsmnParse) (str : List UInt8) :
    JsmnM (Option JsmnVal) := do
  let some self ← jsmnWrapperNew grants parse str | return none
  match ← jsmnValWrap grants self.jw self.jw.fuel with
  | none => do
    jsmnWrapperDelete self
    return none
  | some val => do
    jsmnWrapperDelete self
    return some val

end LibCC
