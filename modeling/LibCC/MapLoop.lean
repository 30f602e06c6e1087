import LibCC.MapTraversal
import LibCC.OrderedCursor

/-! A loop over a map whose body adds and removes entries. The position of the
loop is a cursor in the order of the nodes, which no call disturbs. -/

namespace LibCC

open OrderedCursor SequenceFamily SortedSearch

variable {V : Type}

/-- A loop with cc_map_head and cc_map_next. `visits` are the entries it has met, `stayed` the
keys that have been in the map since it began, and `adds` counts the calls of cc_map_addp. -/
structure MapLoop (V : Type) where
  map : CcMap V
  miter : Option IterPtr
  visits : List (MapKey × V)
  stayed : Set MapKey
  adds : Nat

namespace MapLoop

def start (map : CcMap V) : MapLoop V where
  map := map
  miter := mapHead map
  visits := ((mapHead map).map map.entry).toList
  stayed := {key | ∃ y ∈ map.seq, mapKey map y = key}
  adds := 0

def move (s : MapLoop V) (map : CcMap V) (miter : Option IterPtr) : MapLoop V :=
  { s with map := map, miter := miter, visits := s.visits ++ (miter.map map.entry).toList }

def without (s : MapLoop V) (y : IterPtr) : MapLoop V :=
  { s with map := (mapRemove s.map y).2.2, stayed := s.stayed \ {mapKey s.map y} }

end MapLoop

/-- `next` and `drop` end a turn of the loop, with cc_map_next and with cc_map_remove of the
entry that the turn is at. -/
inductive MapLoopStep (hashFn : UInt32 → List UInt8 → UInt32) : MapLoop V → MapLoop V → Prop
  | addp {s : MapLoop V} (mem : UInt64 → UInt8) (val : V) (len : Nat) (key : UInt64)
      (alloc : MapAlloc) : alloc.Unused s.map →
      mapSize (mapAddp hashFn mem s.map val len key alloc).2 ≤ 2 ^ 30 →
      MapLoopStep hashFn s
        { s with map := (mapAddp hashFn mem s.map val len key alloc).2, adds := s.adds + 1 }
  | remove {s : MapLoop V} {y : IterPtr} : y ∈ s.map.seq → s.miter ≠ some y →
      MapLoopStep hashFn s (s.without y)
  | next {s : MapLoop V} {miter : IterPtr} : s.miter = some miter →
      MapLoopStep hashFn s (s.move s.map (mapNext s.map miter))
  | drop {s : MapLoop V} {miter : IterPtr} : s.miter = some miter →
      MapLoopStep hashFn s
        ((s.without miter).move (mapRemove s.map miter).2.2 (mapRemove s.map miter).2.1)

/-- The loop as a cursor in the ranks of the keys. -/
def MapLoop.cursor (hashFn : UInt32 → List UInt8 → UInt32) (s : MapLoop V) : Cursor (List Nat) where
  live := ranks s.map.rank s.map.seq
  pos := s.miter.map s.map.rank
  seen := s.visits.map fun e => mapKeyRank hashFn s.map.seed e.1
  stayed := mapKeyRank hashFn s.map.seed '' s.stayed

/-- The entries that the loop has still to meet. -/
def MapLoop.ahead (s : MapLoop V) : Nat :=
  match s.miter with
  | none => 0
  | some y => s.map.seq.countP fun z => s.map.rank y < s.map.rank z

theorem MapLoop.ahead_eq (s : MapLoop V) (h : Ascending s.map.rank s.map.seq) {y : IterPtr}
    (hy : y ∈ s.map.seq) (hs : s.miter = some y) : s.ahead = (after y s.map.seq).length := by
  rw [← countP_above h hy, MapLoop.ahead, hs]

/-- `m` and `size` are of the map when the loop began. -/
structure MapLoopInv (hashFn : UInt32 → List UInt8 → UInt32) (m : MapTable V) (seed : UInt32)
    (size : Nat) (s : MapLoop V) : Prop where
  rep : ∃ m', MapRep hashFn m' s.map ∧ ∀ key ∈ s.stayed, m' key = m key
  seed : s.map.seed = seed
  pos : ∀ y, s.miter = some y → y ∈ s.map.seq ∧ s.visits.getLast? = some (s.map.entry y)
  kept : ∀ key ∈ s.stayed, m key ≠ none
  vals : ∀ e ∈ s.visits, e.1 ∈ s.stayed → (m e.1).map Prod.snd = some e.2
  cursor : Inv (s.cursor hashFn)
  turns : s.visits.length + s.ahead ≤ size + s.adds

section

variable {hashFn : UInt32 → List UInt8 → UInt32} {m m' : MapTable V} {self map : CcMap V}

/-- An entry that two maps have in common. -/
theorem MapRep.entry_eq (h : MapRep hashFn m self) (h' : MapRep hashFn m' map)
    {y : IterPtr} (hy : y ∈ self.seq) (he : m' (mapKey self y) = m (mapKey self y)) :
    y ∈ map.seq ∧ map.entry y = self.entry y := by
  have hm := (h.entries (mapKey self y) y (mapVal self y)).mpr ⟨hy, rfl, rfl⟩
  obtain ⟨hy', hk, hv⟩ := (h'.entries _ y _).mp (he.trans hm)
  exact ⟨hy', Prod.ext hk hv⟩

theorem MapRep.rank_entry (h : MapRep hashFn m self) (h' : MapRep hashFn m' map)
    (hseed : map.seed = self.seed) {y : IterPtr} (hy : y ∈ self.seq) (hy' : y ∈ map.seq)
    (he : map.entry y = self.entry y) : map.rank y = self.rank y := by
  have hk : (map.node y).key = (self.node y).key := congrArg Prod.fst he
  rw [h'.rank_eq hy', h.rank_eq hy, hseed, hk]

theorem mapAddp_seed (hashFn : UInt32 → List UInt8 → UInt32) (mem : UInt64 → UInt8)
    (self : CcMap V) (h : MapInv self) (val : V) (len : Nat) (key : UInt64) (alloc : MapAlloc) :
    (mapAddp hashFn mem self val len key alloc).2.seed = self.seed := by
  cases hk : mapKeyBytes mem len key with
  | none => simp only [mapAddp, hk]
  | some k =>
    simp only [mapAddp, hk]
    rcases mapAddHash_cases h val (hashFn self.seed k.bytes) k alloc with ⟨he, -⟩ | ⟨y, -, -, he⟩
    · rw [he]
    · rw [he, (mapGrow_frame _ _).1]
      rfl

theorem mapRemove_seed (self : CcMap V) (miter : IterPtr) :
    (mapRemove self miter).2.2.seed = self.seed := by
  simp only [mapRemove]
  split_ifs <;> rfl

theorem mapRemove_entry (self : CcMap V) (miter : IterPtr) :
    (mapRemove self miter).2.2.entry = self.entry := by
  funext y
  simp only [CcMap.entry, mapKey, mapVal, mapRemove_node]

theorem mapRemove_rank (self : CcMap V) (miter : IterPtr) :
    (mapRemove self miter).2.2.rank = self.rank := by
  funext y
  simp only [CcMap.rank, mapRemove_node]

/-- Removing an entry from the map removes it from the ranks and from what stayed. -/
theorem MapLoop.cursor_without (h : MapRep hashFn m self) {s : MapLoop V} (hs : s.map = self)
    {y : IterPtr} (hy : y ∈ self.seq) :
    (s.without y).cursor hashFn = (s.cursor hashFn).remove (self.rank y) := by
  subst hs
  have hstayed : mapKeyRank hashFn s.map.seed '' (s.stayed \ {mapKey s.map y}) =
      mapKeyRank hashFn s.map.seed '' s.stayed \ {s.map.rank y} := by
    rw [Set.image_sdiff (mapKeyRank_injective s.map.seed), Set.image_singleton, h.rank_eq hy]
    rfl
  simp only [MapLoop.without, MapLoop.cursor, Cursor.remove, mapRemove_seed, mapRemove_rank,
    mapRemove_seq, hstayed, ranks_erase h.inv.ascending hy]

/-- Moving the loop on, over the map as it then is, moves the cursor. -/
theorem MapLoop.cursor_move {s : MapLoop V} (hs : s.map = self)
    {o : Option IterPtr} (ho : ∀ y, o = some y → self.rank y =
      mapKeyRank hashFn self.seed (mapKey self y)) :
    (s.move self o).cursor hashFn = (s.cursor hashFn).move (o.map self.rank) := by
  subst hs
  cases o with
  | none => simp [MapLoop.move, MapLoop.cursor, Cursor.move]
  | some y => simp [MapLoop.move, MapLoop.cursor, Cursor.move, CcMap.entry, ho y rfl]

section Steps

variable {seed : UInt32} {size : Nat} {s : MapLoop V}

theorem MapLoopInv.remove (h : MapLoopInv hashFn m seed size s) {y : IterPtr}
    (hy : y ∈ s.map.seq) (hne : s.miter ≠ some y) :
    MapLoopInv hashFn m seed size (s.without y) := by
  obtain ⟨m', hrep, hstay⟩ := h.rep
  have hasc := hrep.inv.ascending
  refine ⟨⟨_, hrep.remove hy, fun key hk => ?_⟩, (mapRemove_seed _ _).trans h.seed, fun z hz => ?_,
    fun key hk => h.kept key hk.1, fun e he hk => h.vals e he hk.1, ?_, ?_⟩
  · have hkey : m' key = m key := hstay key hk.1
    cases he : m' key with
    | none => rw [← hkey, he]; rfl
    | some e =>
      have hent := (hrep.entries key e.1 e.2).mp he
      have hey : e.1 ≠ y := by
        intro heq
        apply hk.2
        rw [heq] at hent
        exact hent.2.1.symm
      rw [← hkey, he]
      simp [hey]
  · obtain ⟨hz', hlast⟩ := h.pos z hz
    have hzy : z ≠ y := fun heq => hne (heq ▸ hz)
    constructor
    · change z ∈ (mapRemove s.map y).2.2.seq
      rw [mapRemove_seq, hasc.nodup.mem_erase_iff]
      exact ⟨hzy, hz'⟩
    · change s.visits.getLast? = some ((mapRemove s.map y).2.2.entry z)
      rw [mapRemove_entry, hlast]
  · rw [MapLoop.cursor_without hrep rfl hy]
    apply h.cursor.remove
    intro hpos
    obtain ⟨z, hz, he⟩ := Option.map_eq_some_iff.mp hpos
    have hzy := hasc.rank_inj (h.pos z hz).1 hy he
    exact hne (hzy ▸ hz)
  · have hahead : (s.without y).ahead ≤ s.ahead := by
      simp only [MapLoop.ahead, MapLoop.without, mapRemove_seq, mapRemove_rank]
      cases s.miter with
      | none => exact le_refl 0
      | some z => exact List.erase_sublist.countP_le
    have hturns := h.turns
    change s.visits.length + (s.without y).ahead ≤ size + s.adds
    omega

theorem MapLoopInv.next (h : MapLoopInv hashFn m seed size s) {p : IterPtr}
    (hp : s.miter = some p) : MapLoopInv hashFn m seed size (s.move s.map (mapNext s.map p)) := by
  obtain ⟨m', hrep, hstay⟩ := h.rep
  have hasc := hrep.inv.ascending
  have hmem := (h.pos p hp).1
  have hnext : ∀ y, mapNext s.map p = some y →
      y ∈ s.map.seq ∧ (after p s.map.seq).length = (after y s.map.seq).length + 1 :=
    fun y hy => after_head hasc.nodup hmem hy
  refine ⟨⟨m', hrep, hstay⟩, h.seed, fun y hy => ?_, h.kept, fun e he hk => ?_, ?_, ?_⟩
  · have hy' : mapNext s.map p = some y := hy
    refine ⟨(hnext y hy').1, ?_⟩
    simp [MapLoop.move, hy']
  · rcases List.mem_append.mp he with he | he
    · exact h.vals e he hk
    · obtain ⟨y, hy, rfl⟩ := Option.map_eq_some_iff.mp (Option.mem_toList.mp he)
      have hent := (hrep.entries _ y (mapVal s.map y)).mpr ⟨(hnext y hy).1, rfl, rfl⟩
      rw [← hstay _ hk]
      exact congrArg (Option.map Prod.snd) hent
  · rw [MapLoop.cursor_move rfl fun y hy => hrep.rank_eq (hnext y hy).1]
    apply h.cursor.move (p := s.map.rank p)
    · exact congrArg (Option.map s.map.rank) hp
    · exact follows_after hasc hmem
  · have hturns := h.turns
    rw [s.ahead_eq hasc hmem hp] at hturns
    cases hn : mapNext s.map p with
    | none =>
      simp only [MapLoop.ahead, MapLoop.move, Option.map_none, Option.toList_none, List.append_nil]
      omega
    | some y =>
      obtain ⟨hy, hlen⟩ := hnext y hn
      rw [MapLoop.ahead_eq (s.move s.map (some y)) hasc hy rfl]
      simp only [MapLoop.move, Option.map_some, Option.toList_some, List.length_append,
        List.length_singleton]
      omega

theorem MapLoop.drop_eq (s : MapLoop V) (p : IterPtr) :
    (s.without p).move (mapRemove s.map p).2.2 (mapRemove s.map p).2.1 =
      (s.move s.map (mapNext s.map p)).without p := by
  simp only [MapLoop.move, MapLoop.without, mapRemove_entry]
  rfl

theorem MapLoopInv.drop (h : MapLoopInv hashFn m seed size s) {p : IterPtr}
    (hp : s.miter = some p) :
    MapLoopInv hashFn m seed size
      ((s.without p).move (mapRemove s.map p).2.2 (mapRemove s.map p).2.1) := by
  obtain ⟨m', hrep, -⟩ := h.rep
  have hmem := (h.pos p hp).1
  rw [MapLoop.drop_eq]
  apply (h.next hp).remove hmem
  intro he
  have hlen := (after_head hrep.inv.ascending.nodup hmem he).2
  omega

theorem MapLoopInv.addp (h : MapLoopInv hashFn m seed size s) (mem : UInt64 → UInt8) (val : V)
    (len : Nat) (key : UInt64) {alloc : MapAlloc} (ha : alloc.Unused s.map)
    (hs : mapSize (mapAddp hashFn mem s.map val len key alloc).2 ≤ 2 ^ 30) :
    MapLoopInv hashFn m seed size
      { s with map := (mapAddp hashFn mem s.map val len key alloc).2, adds := s.adds + 1 } := by
  obtain ⟨m', hrep, hstay⟩ := h.rep
  have hseed := mapAddp_seed hashFn mem s.map hrep.inv val len key alloc
  have hturns := h.turns
  rcases hrep.addp ha mem val len key hs with he | ⟨k, new, -, hn, hm, -, hrep'⟩
  · rw [he]
    refine ⟨⟨m', hrep, hstay⟩, h.seed, h.pos, h.kept, h.vals, h.cursor, ?_⟩
    change s.visits.length + s.ahead ≤ size + (s.adds + 1)
    omega
  · generalize (mapAddp hashFn mem s.map val len key alloc).2 = map at hseed hrep' ⊢
    have hkey : ∀ y ∈ s.map.seq, mapKey s.map y ≠ k := (hrep.absent_iff k).mp hn
    have hold : ∀ y ∈ s.map.seq, y ∈ map.seq ∧ map.entry y = s.map.entry y := fun y hy =>
      hrep.entry_eq hrep' hy (Function.update_of_ne (hkey y hy) ..)
    have hrank : ∀ y ∈ s.map.seq, map.rank y = s.map.rank y := fun y hy =>
      hrep.rank_entry hrep' hseed hy (hold y hy).1 (hold y hy).2
    have hperm := (hrep.added hrep' hn hm).1
    refine ⟨⟨_, hrep', fun key hk => ?_⟩, hseed.trans h.seed, fun y hy => ?_, h.kept, h.vals,
      ?_, ?_⟩
    · have hne : key ≠ k := by
        rintro rfl
        exact h.kept key hk ((hstay key hk).symm.trans hn)
      rw [Function.update_of_ne hne, hstay key hk]
    · obtain ⟨hy', hlast⟩ := h.pos y hy
      exact ⟨(hold y hy').1, hlast.trans (congrArg some (hold y hy').2.symm)⟩
    · have hlive : ranks map.rank map.seq = insert (map.rank new) (ranks s.map.rank s.map.seq) := by
        rw [ranks_perm hperm, ranks_cons, ranks_congr hrank]
      have hpos : s.miter.map map.rank = s.miter.map s.map.rank := by
        cases hy : s.miter with
        | none => rfl
        | some y => exact congrArg some (hrank y (h.pos y hy).1)
      have hstep := Step.inv (.insert (map.rank new)) h.cursor
      simpa only [MapLoop.cursor, hlive, hpos, hseed] using hstep
    · change s.visits.length + MapLoop.ahead { s with map := map, adds := s.adds + 1 } ≤
        size + (s.adds + 1)
      have hahead : MapLoop.ahead { s with map := map, adds := s.adds + 1 } ≤ s.ahead + 1 := by
        unfold MapLoop.ahead
        cases hy : s.miter with
        | none => exact Nat.zero_le _
        | some y =>
          have hcount : s.map.seq.countP (fun z => map.rank y < map.rank z) =
              s.map.seq.countP (fun z => s.map.rank y < s.map.rank z) := by
            apply List.countP_congr
            intro z hz
            rw [hrank y (h.pos y hy).1, hrank z hz]
          simp only [hperm.countP_eq, List.countP_cons, hcount]
          split <;> omega
      omega

theorem MapLoopStep.inv {s' : MapLoop V} (hs : MapLoopStep hashFn s s')
    (h : MapLoopInv hashFn m seed size s) : MapLoopInv hashFn m seed size s' := by
  cases hs with
  | addp mem val len key alloc ha hsize => exact h.addp mem val len key ha hsize
  | remove hy hne => exact h.remove hy hne
  | next hp => exact h.next hp
  | drop hp => exact h.drop hp

theorem mapLoop_start_inv (h : MapRep hashFn m self) :
    MapLoopInv hashFn m self.seed self.seq.length (.start self) := by
  have hasc := h.inv.ascending
  have hhead : ∀ y, mapHead self = some y → y ∈ self.seq := fun y hy => List.mem_of_head? hy
  have hkeys : ∀ y ∈ self.seq, m (mapKey self y) = some (y, mapVal self y) := fun y hy =>
    (h.entries _ y _).mpr ⟨hy, rfl, rfl⟩
  refine ⟨⟨m, h, fun _ _ => rfl⟩, rfl, fun y hy => ?_, ?_, fun e he _ => ?_, ?_, ?_⟩
  · have hy' : mapHead self = some y := hy
    refine ⟨hhead y hy', ?_⟩
    simp [MapLoop.start, hy']
  · rintro key ⟨y, hy, rfl⟩
    rw [hkeys y hy]
    exact Option.some_ne_none _
  · obtain ⟨y, hy, rfl⟩ := Option.map_eq_some_iff.mp (Option.mem_toList.mp he)
    exact congrArg (Option.map Prod.snd) (hkeys y (hhead y hy))
  · have hstart := start_inv (starts_head hasc)
    have hseen : ((mapHead self).map self.entry).toList.map
        (fun e => mapKeyRank hashFn self.seed e.1) = ((mapHead self).map self.rank).toList := by
      cases hy : mapHead self with
      | none => rfl
      | some y => simp [CcMap.entry, mapKey, h.rank_eq (hhead y hy)]
    have hstayed : mapKeyRank hashFn self.seed '' {key | ∃ y ∈ self.seq, mapKey self y = key} =
        ranks self.rank self.seq := by
      ext r
      constructor
      · rintro ⟨key, ⟨y, hy, rfl⟩, rfl⟩
        exact ⟨y, hy, h.rank_eq hy⟩
      · rintro ⟨y, hy, rfl⟩
        exact ⟨_, ⟨y, hy, rfl⟩, (h.rank_eq hy).symm⟩
    simp only [MapLoop.cursor, MapLoop.start, hseen, hstayed]
    exact hstart
  · cases hs : self.seq with
    | nil => simp [MapLoop.ahead, MapLoop.start, mapHead, hs]
    | cons y l =>
      have hy : mapHead self = some y := by rw [mapHead, hs]; rfl
      have hafter : after y self.seq = l := by
        rw [hs]
        exact after_split (a := []) List.not_mem_nil l
      rw [MapLoop.ahead_eq (.start self) hasc (hhead y hy) hy]
      simp [MapLoop.start, hy, hafter, Nat.add_comm]

end Steps

end

/-- Whatever the turns of a loop add to the map and remove from it: the iter of the loop stays an
entry, no key is met twice, and at its end the loop has met what stayed in the map. -/
theorem map_loop_visits {hashFn : UInt32 → List UInt8 → UInt32} {m : MapTable V} {self : CcMap V}
    {s : MapLoop V} (h : MapHistory hashFn m self)
    (hrun : Relation.ReflTransGen (MapLoopStep hashFn) (.start self) s) :
    (∀ y, s.miter = some y → y ∈ s.map.seq ∧ s.visits.getLast? = some (s.map.entry y)) ∧
    (s.visits.map Prod.fst).Nodup ∧
    (s.visits.map fun e => mapKeyRank hashFn self.seed e.1).Pairwise (· < ·) ∧
    s.visits.length ≤ mapSize self + s.adds ∧
    (s.miter = none → ∀ key miter val, m key = some (miter, val) → key ∈ s.stayed →
      (key, val) ∈ s.visits) := by
  have hinv : MapLoopInv hashFn m self.seed self.seq.length s := by
    induction hrun with
    | refl => exact mapLoop_start_inv h.rep
    | tail _ hs ih => exact hs.inv ih
  have hseen := hinv.cursor.seen
  simp only [MapLoop.cursor, hinv.seed] at hseen
  refine ⟨hinv.pos, ?_, hseen, ?_, fun hend key miter val hkey hstay => ?_⟩
  · apply List.Nodup.of_map (mapKeyRank hashFn self.seed)
    rw [List.map_map]
    exact hseen.imp fun hlt => hlt.ne
  · have hturns := hinv.turns
    unfold mapSize
    omega
  · have hmem := hinv.cursor.behind (mapKeyRank hashFn s.map.seed key) ⟨key, hstay, rfl⟩ (by
      intro p hp
      simp [MapLoop.cursor, hend] at hp)
    obtain ⟨e, he, hrank⟩ := List.mem_map.mp hmem
    obtain rfl : e.1 = key := mapKeyRank_injective s.map.seed hrank
    have hval := hinv.vals e he hstay
    rw [hkey] at hval
    obtain rfl : val = e.2 := Option.some.inj hval
    exact he

/-- A loop that adds a key, goes on to it and removes it. -/
theorem map_loop_visits_added : ∃ s : MapLoop Nat, s.miter = none ∧ s.adds = 1 ∧
    s.visits.map Prod.snd = [9, 8] ∧ (s.visits.map Prod.fst).Nodup := by
  have hnew : MapHistory (fun _ _ => 7) (fun _ => none)
      (mapNew 0 fun _ => (⟨9, 0, ⟨[0], by decide, by decide⟩⟩ : MapNode Nat)) := .new 0 _
  have hadd := MapHistory.step (.addp (fun _ => 0) 9 0 5) hnew (Nat.zero_le _)
    (fun _ _ => List.not_mem_nil : MapAlloc.Unused ⟨true, some ⟨0, 0⟩, none⟩ _) (by decide)
  have hother : MapLoopStep (fun _ _ => 7) (.start (mapAddp (fun _ _ => 7) (fun _ => 0)
      (mapNew 0 fun _ => ⟨9, 0, ⟨[0], by decide, by decide⟩⟩) 9 0 5
      ⟨true, some ⟨0, 0⟩, none⟩).2) _ :=
    .addp (fun _ => 0) 8 0 6 ⟨true, some ⟨0, 1⟩, none⟩ (fun iter hi => by
      obtain rfl := Option.some.inj hi
      decide) (by decide)
  have hrun := ((Relation.ReflTransGen.single hother).tail (.next rfl)).tail (.drop rfl)
  exact ⟨_, rfl, rfl, by decide, (map_loop_visits hadd hrun).2.1⟩

end LibCC
