import LibCC.JsmnReadsBack
import LibCC.JsmnTree

/-! The tokens of the text of a tree stand for that tree and for no other. -/

namespace LibCC

section Unique

variable {str : List UInt8}

theorem Covers.unique {start : Int} {bytes bytes' : List UInt8} (h : Covers str start bytes)
    (h' : Covers str start bytes') (hlen : bytes.length = bytes'.length) : bytes = bytes' := by
  induction bytes generalizing start bytes' with
  | nil => exact (List.eq_nil_of_length_eq_zero hlen.symm).symm
  | cons byte bytes ih =>
    cases bytes' with
    | nil => exact absurd hlen (by simp)
    | cons byte' bytes' =>
      obtain ⟨-, hb, hc⟩ := h
      obtain ⟨-, hb', hc'⟩ := h'
      have hbyte : byte = byte' := Option.some.inj (hb.symm.trans hb')
      rw [hbyte, ih hc hc' (Nat.succ.inj hlen)]

theorem Delimits.unique {tok : JsmnTok} {bytes bytes' : List UInt8} (h : Delimits str tok bytes)
    (h' : Delimits str tok bytes') : bytes = bytes' := by
  have hstop := h.1
  have hstop' := h'.1
  apply Covers.unique h.2 h'.2
  omega

/-- The type of the first token of a tree. -/
def JsmnTree.root : JsmnTree → JsmnType
  | .object _ => .object
  | .array _ => .array
  | .leaf type _ => .leaf type

theorem Flattens.root {tree : JsmnTree} {toks : List JsmnTok} (h : Flattens str tree toks) :
    ∃ tok rest, toks = tok :: rest ∧ tok.type = tree.root := by
  cases tree with
  | object members =>
    obtain ⟨tok, rest, rfl, hty, -⟩ := h
    exact ⟨tok, rest, rfl, hty⟩
  | array elements =>
    obtain ⟨tok, rest, rfl, hty, -⟩ := h
    exact ⟨tok, rest, rfl, hty⟩
  | leaf type bytes =>
    obtain ⟨tok, rfl, hty, -⟩ := h
    exact ⟨tok, [], rfl, hty⟩

theorem Flattens.root_eq {tree tree' : JsmnTree} {toks toks' later later' : List JsmnTok}
    (h : Flattens str tree toks) (h' : Flattens str tree' toks')
    (he : toks ++ later = toks' ++ later') : tree.root = tree'.root := by
  obtain ⟨tok, rest, rfl, hty⟩ := h.root
  obtain ⟨tok', rest', rfl, hty'⟩ := h'.root
  obtain ⟨rfl, -⟩ := List.cons.inj he
  exact hty.symm.trans hty'

mutual

/-- Tokens that begin with those of a tree begin with those of no other tree. -/
theorem Flattens.unique : ∀ (tree tree' : JsmnTree) (toks toks' later later' : List JsmnTok),
    Flattens str tree toks → Flattens str tree' toks' → toks ++ later = toks' ++ later' →
    tree = tree' ∧ later = later'
  | .object members, tree', toks, toks', later, later', h, h', he => by
    have hroot := h.root_eq h' he
    obtain ⟨tok, rest, rfl, -, hsize, hrest⟩ := h
    cases tree' with
    | object members' =>
      obtain ⟨tok', rest', rfl, -, hsize', hrest'⟩ := h'
      obtain ⟨rfl, htail⟩ := List.cons.inj he
      have hlen : members.length = members'.length := by omega
      obtain ⟨rfl, hlater⟩ := FlattensMembers.unique members members' rest rest' later later' hrest
        hrest' hlen htail
      exact ⟨rfl, hlater⟩
    | array elements' => exact absurd hroot (by simp [JsmnTree.root])
    | leaf type' bytes' => exact absurd hroot (by simp [JsmnTree.root])
  | .array elements, tree', toks, toks', later, later', h, h', he => by
    have hroot := h.root_eq h' he
    obtain ⟨tok, rest, rfl, -, hsize, hrest⟩ := h
    cases tree' with
    | object members' => exact absurd hroot (by simp [JsmnTree.root])
    | array elements' =>
      obtain ⟨tok', rest', rfl, -, hsize', hrest'⟩ := h'
      obtain ⟨rfl, htail⟩ := List.cons.inj he
      have hlen : elements.length = elements'.length := by omega
      obtain ⟨rfl, hlater⟩ := FlattensElements.unique elements elements' rest rest' later later'
        hrest hrest' hlen htail
      exact ⟨rfl, hlater⟩
    | leaf type' bytes' => exact absurd hroot (by simp [JsmnTree.root])
  | .leaf type bytes, tree', toks, toks', later, later', h, h', he => by
    have hroot := h.root_eq h' he
    obtain ⟨tok, rfl, -, hd⟩ := h
    cases tree' with
    | object members' => exact absurd hroot (by simp [JsmnTree.root])
    | array elements' => exact absurd hroot (by simp [JsmnTree.root])
    | leaf type' bytes' =>
      obtain ⟨tok', rfl, -, hd'⟩ := h'
      obtain ⟨rfl, hlater⟩ := List.cons.inj he
      obtain rfl := JsmnType.leaf.inj hroot
      exact ⟨by rw [hd.unique hd'], hlater⟩

theorem FlattensMembers.unique : ∀ (members members' : List (List UInt8 × JsmnTree))
    (toks toks' later later' : List JsmnTok), FlattensMembers str members toks →
    FlattensMembers str members' toks' → members.length = members'.length →
    toks ++ later = toks' ++ later' → members = members' ∧ later = later'
  | [], [], toks, toks', later, later', h, h', _, he => by
    obtain rfl := h
    obtain rfl := h'
    exact ⟨rfl, he⟩
  | [], _ :: _, _, _, _, _, _, _, hlen, _ => absurd hlen (by simp)
  | _ :: _, [], _, _, _, _, _, _, hlen, _ => absurd hlen (by simp)
  | (key, tree) :: members, (key', tree') :: members', toks, toks', later, later', h, h', hlen,
    he => by
    obtain ⟨tok, val, rest, rfl, -, hkey, hval, hrest⟩ := h
    obtain ⟨tok', val', rest', rfl, -, hkey', hval', hrest'⟩ := h'
    rw [List.cons_append, List.append_assoc, List.cons_append, List.append_assoc] at he
    obtain ⟨rfl, htail⟩ := List.cons.inj he
    obtain ⟨rfl, hreste⟩ := Flattens.unique tree tree' val val' _ _ hval hval' htail
    obtain ⟨rfl, hlater⟩ := FlattensMembers.unique members members' rest rest' later later' hrest
      hrest' (Nat.succ.inj hlen) hreste
    exact ⟨by rw [hkey.unique hkey'], hlater⟩

theorem FlattensElements.unique : ∀ (elements elements' : List JsmnTree)
    (toks toks' later later' : List JsmnTok), FlattensElements str elements toks →
    FlattensElements str elements' toks' → elements.length = elements'.length →
    toks ++ later = toks' ++ later' → elements = elements' ∧ later = later'
  | [], [], toks, toks', later, later', h, h', _, he => by
    obtain rfl := h
    obtain rfl := h'
    exact ⟨rfl, he⟩
  | [], _ :: _, _, _, _, _, _, _, hlen, _ => absurd hlen (by simp)
  | _ :: _, [], _, _, _, _, _, _, hlen, _ => absurd hlen (by simp)
  | tree :: elements, tree' :: elements', toks, toks', later, later', h, h', hlen, he => by
    obtain ⟨val, rest, rfl, hval, hrest⟩ := h
    obtain ⟨val', rest', rfl, hval', hrest'⟩ := h'
    rw [List.append_assoc, List.append_assoc] at he
    obtain ⟨rfl, hreste⟩ := Flattens.unique tree tree' val val' _ _ hval hval' he
    obtain ⟨rfl, hlater⟩ := FlattensElements.unique elements elements' rest rest' later later'
      hrest hrest' (Nat.succ.inj hlen) hreste
    exact ⟨rfl, hlater⟩

end

end Unique

section Tokens

def JsmnScalar.leaf : JsmnScalar → JsmnLeaf
  | .string _ => .string
  | _ => .primitive

mutual

/-- The tree that a reader of the text is to build. -/
def JsmnDoc.tree : JsmnDoc → JsmnTree
  | .scalar s => .leaf s.leaf s.str.bytes
  | .object members => .object (jsmnMembersTree members)
  | .array elements => .array (jsmnElementsTree elements)

def jsmnMembersTree : List (JsmnText × JsmnDoc) → List (List UInt8 × JsmnTree)
  | [] => []
  | (key, doc) :: members => (key.bytes, doc.tree) :: jsmnMembersTree members

def jsmnElementsTree : List JsmnDoc → List JsmnTree
  | [] => []
  | doc :: elements => doc.tree :: jsmnElementsTree elements

end

/-- The token of `bytes` from the offset `start` on. -/
def jsmnTokenAt (type : JsmnType) (start : Nat) (bytes : List UInt8) (size : Nat) : JsmnTok :=
  ⟨type, start, start + bytes.length, size⟩

mutual

/-- The tokens of the text where it stands at the offset `start`: a string goes without its
quotes, a container counts its members, a key counts its value. -/
def JsmnDoc.tokens (start : Nat) : JsmnDoc → List JsmnTok
  | .scalar s =>
    [jsmnTokenAt s.type (if s.type = .leaf .string then start + 1 else start) s.str.bytes 0]
  | .object members =>
    jsmnTokenAt .object start (JsmnDoc.object members).text members.length ::
      jsmnMembersTokens (start + 1) 0 members
  | .array elements =>
    jsmnTokenAt .array start (JsmnDoc.array elements).text elements.length ::
      jsmnElementsTokens (start + 1) 0 elements

def jsmnMembersTokens (start : Nat) : Nat → List (JsmnText × JsmnDoc) → List JsmnTok
  | _, [] => []
  | i, (key, doc) :: members =>
    let keyAt := start + (jsmnSep i).length
    let docAt := keyAt + (jsmnKeyText key).length
    jsmnTokenAt (.leaf .string) (keyAt + 1) key.bytes 1 ::
      (doc.tokens docAt ++ jsmnMembersTokens (docAt + doc.text.length) (i + 1) members)

def jsmnElementsTokens (start : Nat) : Nat → List JsmnDoc → List JsmnTok
  | _, [] => []
  | i, doc :: elements =>
    let docAt := start + (jsmnSep i).length
    doc.tokens docAt ++ jsmnElementsTokens (docAt + doc.text.length) (i + 1) elements

end

variable {str a b : List UInt8} {start : Nat}

theorem prefix_drop_right (h : a ++ b <+: str.drop start) : b <+: str.drop (start + a.length) := by
  obtain ⟨rest, hr⟩ := h
  refine ⟨rest, ?_⟩
  rw [← List.drop_drop, ← hr, List.append_assoc, List.drop_left]

theorem prefix_drop_left (h : a ++ b <+: str.drop start) : a <+: str.drop start :=
  (List.prefix_append a b).trans h

theorem covers_of_prefix (h : b <+: str.drop start) : Covers str start b := by
  induction b generalizing start with
  | nil => exact trivial
  | cons byte bytes ih =>
    have hrest : bytes <+: str.drop (start + 1) := prefix_drop_right (a := [byte]) h
    obtain ⟨rest, hr⟩ := h
    refine ⟨by omega, ?_, ?_⟩
    · rw [Int.toNat_natCast, ← List.head?_drop, ← hr]
      rfl
    · exact_mod_cast ih hrest

theorem jsmnTokenAt_delimits {type : JsmnType} {size : Nat} (h : b <+: str.drop start) :
    Delimits str (jsmnTokenAt type start b size) b :=
  ⟨rfl, covers_of_prefix h⟩

theorem JsmnScalar.type_leaf (s : JsmnScalar) : s.type = .leaf s.leaf := by
  cases s <;> rfl

theorem JsmnScalar.flattens {s : JsmnScalar} (h : s.text <+: str.drop start) :
    Flattens str (.leaf s.leaf s.str.bytes) ((JsmnDoc.scalar s).tokens start) := by
  rw [JsmnDoc.tokens]
  refine ⟨_, rfl, s.type_leaf, ?_⟩
  unfold JsmnScalar.text at h
  by_cases hs : s.type = .leaf .string
  · rw [if_pos hs] at h
    rw [if_pos hs]
    have hbody := prefix_drop_right (a := [34]) h
    exact jsmnTokenAt_delimits (prefix_drop_left hbody)
  · rw [if_neg hs] at h
    rw [if_neg hs]
    exact jsmnTokenAt_delimits h

@[simp] theorem jsmnMembersTree_length (members : List (JsmnText × JsmnDoc)) :
    (jsmnMembersTree members).length = members.length := by
  induction members with
  | nil => rfl
  | cons member members ih => rw [jsmnMembersTree, List.length_cons, List.length_cons, ih]

@[simp] theorem jsmnElementsTree_length (elements : List JsmnDoc) :
    (jsmnElementsTree elements).length = elements.length := by
  induction elements with
  | nil => rfl
  | cons doc elements ih => rw [jsmnElementsTree, List.length_cons, List.length_cons, ih]

mutual

/-- Wherever the text stands, its tokens are the preorder of the tree. -/
theorem JsmnDoc.flattens : ∀ (doc : JsmnDoc) (start : Nat), doc.text <+: str.drop start →
    Flattens str doc.tree (doc.tokens start)
  | .scalar s, start, h => by
    rw [JsmnDoc.text, JsmnDoc.textWith] at h
    rw [JsmnDoc.tree]
    exact s.flattens h
  | .object members, start, h => by
    rw [JsmnDoc.text, JsmnDoc.textWith] at h
    rw [JsmnDoc.tree, JsmnDoc.tokens]
    refine ⟨_, _, rfl, rfl, by simp [jsmnTokenAt], ?_⟩
    have hbody := prefix_drop_right (a := [123]) h
    exact jsmnMembers_flatten members (start + 1) 0 (prefix_drop_left hbody)
  | .array elements, start, h => by
    rw [JsmnDoc.text, JsmnDoc.textWith] at h
    rw [JsmnDoc.tree, JsmnDoc.tokens]
    refine ⟨_, _, rfl, rfl, by simp [jsmnTokenAt], ?_⟩
    have hbody := prefix_drop_right (a := [91]) h
    exact jsmnElements_flatten elements (start + 1) 0 (prefix_drop_left hbody)

theorem jsmnMembers_flatten : ∀ (members : List (JsmnText × JsmnDoc)) (start i : Nat),
    jsmnMembersText jsmnSep i members <+: str.drop start →
    FlattensMembers str (jsmnMembersTree members) (jsmnMembersTokens start i members)
  | [], _, _, _ => rfl
  | (key, doc) :: members, start, i, h => by
    rw [jsmnMembersText, List.append_assoc, List.append_assoc] at h
    rw [jsmnMembersTree, jsmnMembersTokens]
    have hkey := prefix_drop_right h
    have hdoc := prefix_drop_right hkey
    have hbytes := prefix_drop_right (a := [34]) (prefix_drop_left hkey)
    refine ⟨_, _, _, rfl, rfl, ?_, doc.flattens _ (prefix_drop_left hdoc), ?_⟩
    · exact jsmnTokenAt_delimits (prefix_drop_left hbytes)
    · exact jsmnMembers_flatten members _ (i + 1) (prefix_drop_right hdoc)

theorem jsmnElements_flatten : ∀ (elements : List JsmnDoc) (start i : Nat),
    jsmnElementsText jsmnSep i elements <+: str.drop start →
    FlattensElements str (jsmnElementsTree elements) (jsmnElementsTokens start i elements)
  | [], _, _, _ => rfl
  | doc :: elements, start, i, h => by
    rw [jsmnElementsText, List.append_assoc] at h
    rw [jsmnElementsTree, jsmnElementsTokens]
    have hdoc := prefix_drop_right h
    refine ⟨_, _, rfl, doc.flattens _ (prefix_drop_left hdoc), ?_⟩
    exact jsmnElements_flatten elements _ (i + 1) (prefix_drop_right hdoc)

end

/-- The token ends at the offset `limit` or before it. -/
def JsmnTok.Within (limit : Nat) (tok : JsmnTok) : Prop :=
  ∃ type start bytes size, tok = jsmnTokenAt type start bytes size ∧ start + bytes.length ≤ limit

theorem JsmnTok.Within.mono {tok : JsmnTok} {limit limit' : Nat} (h : tok.Within limit)
    (hle : limit ≤ limit') : tok.Within limit' := by
  obtain ⟨type, start, bytes, size, htok, hend⟩ := h
  exact ⟨type, start, bytes, size, htok, by omega⟩

theorem jsmnKeyText_length (key : JsmnText) : (jsmnKeyText key).length = key.bytes.length + 3 := by
  simp [jsmnKeyText]

mutual

theorem JsmnDoc.tokens_within : ∀ (doc : JsmnDoc) (start : Nat), ∀ tok ∈ doc.tokens start,
    tok.Within (start + doc.text.length)
  | .scalar s, start, tok, h => by
    rw [JsmnDoc.tokens, List.mem_singleton] at h
    rw [JsmnDoc.text, JsmnDoc.textWith, JsmnScalar.text]
    refine ⟨_, _, _, _, h, ?_⟩
    split_ifs
    · simp
      omega
    · omega
  | .object members, start, tok, h => by
    rw [JsmnDoc.tokens] at h
    rcases List.mem_cons.mp h with rfl | h
    · exact ⟨_, _, _, _, rfl, le_refl _⟩
    · refine (jsmnMembersTokens_within members (start + 1) 0 tok h).mono ?_
      rw [JsmnDoc.text, JsmnDoc.textWith]
      simp
      omega
  | .array elements, start, tok, h => by
    rw [JsmnDoc.tokens] at h
    rcases List.mem_cons.mp h with rfl | h
    · exact ⟨_, _, _, _, rfl, le_refl _⟩
    · refine (jsmnElementsTokens_within elements (start + 1) 0 tok h).mono ?_
      rw [JsmnDoc.text, JsmnDoc.textWith]
      simp
      omega

theorem jsmnMembersTokens_within : ∀ (members : List (JsmnText × JsmnDoc)) (start i : Nat),
    ∀ tok ∈ jsmnMembersTokens start i members,
      tok.Within (start + (jsmnMembersText jsmnSep i members).length)
  | [], _, _, tok, h => absurd h (by simp [jsmnMembersTokens])
  | (key, doc) :: members, start, i, tok, h => by
    rw [jsmnMembersTokens] at h
    have hkey := jsmnKeyText_length key
    have hlen : (jsmnMembersText jsmnSep i ((key, doc) :: members)).length = (jsmnSep i).length +
        (jsmnKeyText key).length + doc.text.length +
        (jsmnMembersText jsmnSep (i + 1) members).length := by
      rw [jsmnMembersText, List.length_append, List.length_append, List.length_append]
      rfl
    rcases List.mem_cons.mp h with rfl | h
    · exact ⟨_, _, _, _, rfl, by omega⟩
    · rcases List.mem_append.mp h with h | h
      · exact (doc.tokens_within _ tok h).mono (by omega)
      · exact (jsmnMembersTokens_within members _ (i + 1) tok h).mono (by omega)

theorem jsmnElementsTokens_within : ∀ (elements : List JsmnDoc) (start i : Nat),
    ∀ tok ∈ jsmnElementsTokens start i elements,
      tok.Within (start + (jsmnElementsText jsmnSep i elements).length)
  | [], _, _, tok, h => absurd h (by simp [jsmnElementsTokens])
  | doc :: elements, start, i, tok, h => by
    rw [jsmnElementsTokens] at h
    have hlen : (jsmnElementsText jsmnSep i (doc :: elements)).length = (jsmnSep i).length +
        doc.text.length + (jsmnElementsText jsmnSep (i + 1) elements).length := by
      rw [jsmnElementsText, List.length_append, List.length_append]
      rfl
    rcases List.mem_append.mp h with h | h
    · exact (doc.tokens_within _ tok h).mono (by omega)
    · exact (jsmnElementsTokens_within elements _ (i + 1) tok h).mono (by omega)

end

end Tokens

end LibCC
