import LibCC.JsmnTree

/-! The writer of cc_jsmnStream.c: an array of frames, one for each container
that is open, and the buffer that the texts are appended to. -/

namespace LibCC

/-- A C string in one of the arrays of 256 bytes, without the NUL that ends it. -/
@[ext] structure JsmnText where
  bytes : List UInt8
  nulFree : (0 : UInt8) ∉ bytes
  fits : bytes.length < 256
  deriving DecidableEq

namespace JsmnText

def comma : JsmnText := ⟨[44], by decide, by decide⟩
def quote : JsmnText := ⟨[34], by decide, by decide⟩
def colon : JsmnText := ⟨[58], by decide, by decide⟩
def openBrace : JsmnText := ⟨[123], by decide, by decide⟩
def closeBrace : JsmnText := ⟨[125], by decide, by decide⟩
def openBracket : JsmnText := ⟨[91], by decide, by decide⟩
def closeBracket : JsmnText := ⟨[93], by decide, by decide⟩
def true_ : JsmnText := ⟨[116, 114, 117, 101], by decide, by decide⟩
def false_ : JsmnText := ⟨[102, 97, 108, 115, 101], by decide, by decide⟩
def null : JsmnText := ⟨[110, 117, 108, 108], by decide, by decide⟩

end JsmnText

def formatNat (n : Nat) : List UInt8 :=
  if n = 0 then [48] else (Nat.digits 10 n).reverse.map fun d => UInt8.ofNat (48 + d)

/-- The conversion %i. -/
def formatInt (i : Int) : List UInt8 :=
  if i < 0 then 45 :: formatNat i.natAbs else formatNat i.natAbs

theorem formatNat_nulFree (n : Nat) : (0 : UInt8) ∉ formatNat n := by
  unfold formatNat
  split_ifs
  · decide
  · intro h
    obtain ⟨d, hd, he⟩ := List.mem_map.mp h
    have hlt : d < 10 := Nat.digits_lt_base (by omega) (List.mem_reverse.mp hd)
    interval_cases d <;> exact absurd he (by decide)

theorem formatNat_length {n k : Nat} (hn : n < 10 ^ k) (hk : 0 < k) :
    (formatNat n).length ≤ k := by
  unfold formatNat
  split_ifs
  · exact hk
  · rw [List.length_map, List.length_reverse]
    exact (Nat.digits_length_le_iff (by omega) n).mpr hn

/-- The text of an int. -/
def jsmnIntText (val : Int32) : JsmnText where
  bytes := formatInt val.toInt
  nulFree := by
    unfold formatInt
    split_ifs
    · have := formatNat_nulFree val.toInt.natAbs
      simpa using this
    · exact formatNat_nulFree _
  fits := by
    have hlo := val.le_toInt
    have hhi := val.toInt_lt
    have hlen := formatNat_length (n := val.toInt.natAbs) (k := 10) (by omega) (by omega)
    unfold formatInt
    split_ifs
    · rw [List.length_cons]
      omega
    · omega

/-- cc_jsmnState_t -/
structure JsmnFrame where
  type : JsmnType
  hasKey : Bool
  hasEnd : Bool
  count : Nat

/-- The number of values of a uint32_t. -/
def jsmnCountSize : Nat := 2 ^ 32

/-- What self->buffer points to: the size of the allocation, and its bytes up to the NUL. -/
structure JsmnBuffer where
  size : Nat
  bytes : List UInt8

/-- cc_jsmnStream_t; `requests` numbers the calls of REALLOC. -/
structure JsmnStream where
  len : Nat
  buffer : Option JsmnBuffer
  err : Bool
  depth : Fin 32
  state : Fin 32 → JsmnFrame
  requests : Nat

def jsmnStreamNew : JsmnStream where
  len := 0
  buffer := none
  err := false
  depth := 0
  state := fun _ => ⟨.leaf .undefined, false, false, 0⟩
  requests := 0

namespace JsmnStream

/-- cc_jsmnStream_state -/
def top (self : JsmnStream) : JsmnFrame := self.state self.depth

def setTop (self : JsmnStream) (frame : JsmnFrame) : JsmnStream :=
  { self with state := Function.update self.state self.depth frame }

def error (self : JsmnStream) : JsmnStream := { self with err := true }

/-- The next step of a function that ends where a call returns 0. -/
def andThen (r : Bool × JsmnStream) (f : JsmnStream → Bool × JsmnStream) : Bool × JsmnStream :=
  if r.1 then f r.2 else r

end JsmnStream

/-- The loop that doubles the size. -/
def jsmnStreamGrow (need size : Nat) : Nat :=
  if 0 < size ∧ size < need then jsmnStreamGrow need (size * 2) else size
termination_by need - size

/-- The end of cc_jsmnStream_cat, from the loop that copies. -/
def jsmnStreamCopy (str : JsmnText) (self : JsmnStream) : Bool × JsmnStream :=
  (true, { self with
    buffer := self.buffer.map fun a => { a with bytes := a.bytes.take self.len ++ str.bytes ++ [0] }
    len := self.len + str.bytes.length })

section Calls

variable (grants : Nat → Bool)

def jsmnStreamCat (str : JsmnText) (self : JsmnStream) : Bool × JsmnStream :=
  let size1 := self.buffer.elim 0 JsmnBuffer.size
  let size2 := self.len + str.bytes.length + 1
  if size1 < size2 then
    let size := jsmnStreamGrow size2 (if size1 = 0 then 256 else size1)
    let self' := { self with requests := self.requests + 1 }
    if grants self.requests then
      jsmnStreamCopy str { self' with buffer := some ⟨size, self.buffer.elim [] JsmnBuffer.bytes⟩ }
    else (false, self'.error)
  else jsmnStreamCopy str self

/-- The end of cc_jsmnStream_val. -/
def jsmnStreamAppend (type : JsmnType) (str : JsmnText) (self : JsmnStream) : Bool × JsmnStream :=
  if type = .leaf .string then
    JsmnStream.andThen (jsmnStreamCat grants .quote self) fun self =>
      JsmnStream.andThen (jsmnStreamCat grants str self) (jsmnStreamCat grants .quote)
  else jsmnStreamCat grants str self

/-- cc_jsmnStream_val from the increment of the depth on, for a value of a container. -/
def jsmnStreamNest (type : JsmnType) (str : JsmnText) (self : JsmnStream) : Bool × JsmnStream :=
  if type = .object ∨ type = .array then
    if h : self.depth.val + 1 < 32 then
      let self := { self with depth := ⟨self.depth.val + 1, h⟩ }
      jsmnStreamAppend grants type str (self.setTop ⟨type, false, false, 0⟩)
    else (false, self.error)
  else jsmnStreamAppend grants type str self

/-- The comma before a member or an element. -/
def jsmnStreamComma (self : JsmnStream) : Bool × JsmnStream :=
  if self.top.count ≠ 0 then jsmnStreamCat grants .comma self else (true, self)

def jsmnStreamCount (self : JsmnStream) : JsmnStream :=
  self.setTop { self.top with count := (self.top.count + 1) % jsmnCountSize }

def jsmnStreamVal (type : JsmnType) (str : JsmnText) (self : JsmnStream) : Bool × JsmnStream :=
  let state := self.top
  if state.type = .leaf .undefined then
    jsmnStreamAppend grants type str (self.setTop
      ⟨type, false, type = .leaf .string ∨ type = .leaf .primitive, 0⟩)
  else if state.type = .object ∧ state.hasKey ∧ ¬ state.hasEnd then
    jsmnStreamNest grants type str (self.setTop { state with hasKey := false })
  else if state.type = .array ∧ ¬ state.hasEnd then
    JsmnStream.andThen (jsmnStreamComma grants self) fun self =>
      jsmnStreamNest grants type str (jsmnStreamCount self)
  else (false, self.error)

def jsmnStreamBeginObject : JsmnStream → Bool × JsmnStream :=
  jsmnStreamVal grants .object .openBrace

def jsmnStreamBeginArray : JsmnStream → Bool × JsmnStream :=
  jsmnStreamVal grants .array .openBracket

def jsmnStreamClose (self : JsmnStream) : Bool × JsmnStream :=
  let self := self.setTop { self.top with hasEnd := true }
  (true, { self with depth := ⟨self.depth.val - 1, by omega⟩ })

def jsmnStreamEnd (self : JsmnStream) : Bool × JsmnStream :=
  let state := self.top
  if state.type = .object ∧ ¬ state.hasKey ∧ ¬ state.hasEnd then
    JsmnStream.andThen (jsmnStreamCat grants .closeBrace self) jsmnStreamClose
  else if state.type = .array ∧ ¬ state.hasEnd then
    JsmnStream.andThen (jsmnStreamCat grants .closeBracket self) jsmnStreamClose
  else (false, self.error)

def jsmnStreamKey (text : JsmnText) (self : JsmnStream) : Bool × JsmnStream :=
  let state := self.top
  if state.type = .object ∧ ¬ state.hasKey ∧ ¬ state.hasEnd then
    JsmnStream.andThen (jsmnStreamComma grants (self.setTop { state with hasKey := true }))
      fun self => JsmnStream.andThen (jsmnStreamCat grants .quote (jsmnStreamCount self))
        fun self => JsmnStream.andThen (jsmnStreamCat grants text self)
          fun self => JsmnStream.andThen (jsmnStreamCat grants .quote self)
            (jsmnStreamCat grants .colon)
  else (false, self.error)

def jsmnStreamString (text : JsmnText) : JsmnStream → Bool × JsmnStream :=
  jsmnStreamVal grants (.leaf .string) text

def jsmnStreamTrue : JsmnStream → Bool × JsmnStream :=
  jsmnStreamVal grants (.leaf .primitive) .true_

def jsmnStreamFalse : JsmnStream → Bool × JsmnStream :=
  jsmnStreamVal grants (.leaf .primitive) .false_

def jsmnStreamNull : JsmnStream → Bool × JsmnStream :=
  jsmnStreamVal grants (.leaf .primitive) .null

def jsmnStreamInt (val : Int32) : JsmnStream → Bool × JsmnStream :=
  jsmnStreamVal grants (.leaf .primitive) (jsmnIntText val)

/-- `text` is what snprintf makes of the value. -/
def jsmnStreamFloat (text : JsmnText) : JsmnStream → Bool × JsmnStream :=
  jsmnStreamVal grants (.leaf .primitive) text

def jsmnStreamDouble (text : JsmnText) : JsmnStream → Bool × JsmnStream :=
  jsmnStreamVal grants (.leaf .primitive) text

end Calls

/-- cc_jsmnStream_buffer: what the pointer that it returns points to, and `_size`. -/
def jsmnStreamBuffer (self : JsmnStream) : Option (List UInt8) × Nat × JsmnStream :=
  if ¬ self.err ∧ self.depth = 0 ∧ self.top.type ≠ .leaf .undefined ∧ ¬ self.top.hasKey ∧
      self.top.hasEnd then
    match self.buffer with
    | some a => (some a.bytes, self.len + 1, self)
    | none => (none, 0, self)
  else (none, 0, self.error)

/-- The calls that write a value which is no container. -/
inductive JsmnScalar
  | string (text : JsmnText) | true_ | false_ | null | int (val : Int32)
  | float (text : JsmnText) | double (text : JsmnText)

inductive JsmnCall
  | scalar (s : JsmnScalar) | beginObject | beginArray | end_ | key (text : JsmnText)

def jsmnStreamCall (grants : Nat → Bool) : JsmnCall → JsmnStream → Bool × JsmnStream
  | .scalar (.string text) => jsmnStreamString grants text
  | .scalar .true_ => jsmnStreamTrue grants
  | .scalar .false_ => jsmnStreamFalse grants
  | .scalar .null => jsmnStreamNull grants
  | .scalar (.int val) => jsmnStreamInt grants val
  | .scalar (.float text) => jsmnStreamFloat grants text
  | .scalar (.double text) => jsmnStreamDouble grants text
  | .beginObject => jsmnStreamBeginObject grants
  | .beginArray => jsmnStreamBeginArray grants
  | .end_ => jsmnStreamEnd grants
  | .key text => jsmnStreamKey grants text

/-- A call that writes, or `none` for cc_jsmnStream_buffer. -/
def jsmnStreamOp (grants : Nat → Bool) : Option JsmnCall → JsmnStream → JsmnStream
  | some call, self => (jsmnStreamCall grants call self).2
  | none, self => (jsmnStreamBuffer self).2.2

def jsmnStreamRun (grants : Nat → Bool) (ops : List (Option JsmnCall)) (self : JsmnStream) :
    JsmnStream :=
  ops.foldl (fun self op => jsmnStreamOp grants op self) self

end LibCC
