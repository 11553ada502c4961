import Dert.Store.VhtLaws
import Mathlib.Data.Finmap

namespace Dert.Vht

open Library Library.Probe

variable {keySize valSize : Nat} {hash : Bytes keySize → UInt64}
  {salt : Bytes vhtHashSaltLenExpected} {t t' : Vht keySize valSize} {key k : Bytes keySize}
  {src v : Bytes valSize}

/-- What every table from `vht_create` keeps, as long as no removal cuts a chain. -/
structure Inv (hash : Bytes keySize → UInt64) (t : Vht keySize valSize) : Prop where
  pow : ∃ e, t.cap = 2 ^ e
  granted : t.cap * 2 ≤ ptrdiffMax
  wf : Wf (probeSlot hash t.cap) (reach t.cap) t.slots
  len_eq : t.len = (occupied t.slots (reach t.cap)).card

/-- What it keeps even then. -/
structure Loose (t : Vht keySize valSize) : Prop where
  pow : ∃ e, t.cap = 2 ^ e
  granted : t.cap * 2 ≤ ptrdiffMax
  inside : ∀ i p, t.slots i = some p → i < reach t.cap
  len_eq : t.len = (occupied t.slots (reach t.cap)).card

def lookup (hash : Bytes keySize → UInt64) (t : Vht keySize valSize) (k : Bytes keySize) :
    Option (Bytes valSize) :=
  find t.slots (probeSlot hash t.cap) t.cap k

def reply : Option (Bytes valSize) → Ret × Option (Bytes valSize)
  | none => (.ENODATA, none)
  | some dest => (.ok, some dest)

theorem vhtGet_eq : vhtGet hash t k = reply (lookup hash t k) := by
  rw [vhtGet, vhtGetDirect_eq, ← lookup]
  cases lookup hash t k <;> rfl

namespace Loose

theorem len_le (h : Loose t) : t.len ≤ reach t.cap := by
  rw [h.len_eq]
  exact (Finset.card_filter_le _ _).trans (Finset.card_range _).le

theorem cap_lt (h : Loose t) : t.cap * 4 < sizeMax := by
  have hgranted := h.granted
  have hp : ptrdiffMax * 2 < sizeMax := by decide
  omega

theorem len_lt (h : Loose t) : t.len * 4 < sizeMax := by
  have hlen := Nat.le_trans h.len_le (reach_le t.cap)
  have hcap := h.cap_lt
  omega

theorem stop_lt (h : Loose t) {i : Nat} (hstop : vhtStop hash t k = some i) : i < reach t.cap := by
  obtain ⟨j, -, hseq, -⟩ := stop_iff.mp hstop
  rw [← hseq]
  exact probeSlot_lt h.pow k j

theorem stop_reach (h : Loose t) :
    vhtStop hash t k = stop t.slots (probeSlot hash t.cap) k (reach t.cap) 0 :=
  stop_eq_reach h.pow

theorem full (h : Loose t) (hstop : vhtStop hash t k = none) :
    ∀ i < reach t.cap, (t.slots i).isSome := by
  rw [h.stop_reach] at hstop
  have hchain := stop_eq_none_iff.mp hstop
  intro i hi
  obtain ⟨j, hj, heq⟩ := probeSlot_surjective hash h.pow k 0 hi
  obtain ⟨p, hp, -⟩ := hchain j hj
  rw [← heq, Nat.zero_add, hp]
  rfl

theorem len_full (h : Loose t) (hfull : ∀ i < reach t.cap, (t.slots i).isSome) :
    t.len = reach t.cap := by
  rw [h.len_eq, occupied, Finset.filter_true_of_mem, Finset.card_range]
  exact fun i hi => hfull i (Finset.mem_range.mp hi)

theorem put (h : Loose t) (hash : Bytes keySize → UInt64) (key : Bytes keySize)
    (src : Bytes valSize) :
    Loose (vhtPut hash t key src).1 ∧ (vhtPut hash t key src).1.cap = t.cap ∧
      (vhtPut hash t key src).1.len ≤ t.len + 1 := by
  rw [vhtPut_eq]
  cases hstop : vhtStop hash t key with
  | none => exact ⟨h, rfl, Nat.le_succ _⟩
  | some i =>
    have hi := h.stop_lt hstop
    have hlen : (occupied (Function.update t.slots i (some (key, src))) (reach t.cap)).card =
        if (t.slots i).isSome then t.len else sizeT (t.len + 1) := by
      have hnext : sizeT (t.len + 1) = t.len + 1 := by
        have hlt := h.len_lt
        have hmax : 4 < sizeMax := by decide
        exact sizeT_of_lt (by omega)
      rw [occupied_update_some hi, hnext, h.len_eq]
      split
      · next hheld => rw [Finset.insert_eq_of_mem (mem_occupied.mpr ⟨hi, hheld⟩)]
      · next hvacant =>
        exact Finset.card_insert_of_notMem fun hmem => hvacant (mem_occupied.mp hmem).2
    refine ⟨⟨h.pow, h.granted, fun i' p hi' => ?_, hlen.symm⟩, rfl, ?_⟩
    · by_cases hii : i' = i
      · rw [hii]
        exact hi
      · simp only [Function.update_of_ne hii] at hi'
        exact h.inside i' p hi'
    · dsimp only
      split
      · exact Nat.le_succ _
      · exact sizeT_le _

end Loose

namespace Inv

theorem slot_lt (h : Inv hash t) {i : Nat} {p : Bytes keySize × Bytes valSize}
    (hi : t.slots i = some p) : i < reach t.cap := by
  obtain ⟨j, -, hseq, -⟩ := h.wf i p.1 p.2 hi
  rw [← hseq]
  exact probeSlot_lt h.pow p.1 j

theorem loose (h : Inv hash t) : Loose t := ⟨h.pow, h.granted, fun _ _ => h.slot_lt, h.len_eq⟩

theorem len_le (h : Inv hash t) : t.len ≤ reach t.cap := h.loose.len_le

theorem cap_lt (h : Inv hash t) : t.cap * 4 < sizeMax := h.loose.cap_lt

theorem len_lt (h : Inv hash t) : t.len * 4 < sizeMax := h.loose.len_lt

theorem lookup_iff (h : Inv hash t) : lookup hash t k = some v ↔ ∃ i, t.slots i = some (k, v) :=
  h.wf.find_iff (reach_le t.cap)

theorem full (h : Inv hash t) (hstop : vhtStop hash t k = none) :
    lookup hash t k = none ∧ ∀ i < reach t.cap, (t.slots i).isSome := by
  refine ⟨?_, h.loose.full hstop⟩
  rw [vhtStop] at hstop
  rw [lookup, find, hstop]
  rfl

theorem len_full (h : Inv hash t) (hfull : ∀ i < reach t.cap, (t.slots i).isSome) :
    t.len = reach t.cap :=
  h.loose.len_full hfull

theorem put (h : Inv hash t) (hret : (vhtPut hash t key src).2 = .ok) :
    Inv hash (vhtPut hash t key src).1 ∧ (vhtPut hash t key src).1.cap = t.cap ∧
      (vhtPut hash t key src).1.len ≤ t.len + 1 ∧
      ∀ k, lookup hash (vhtPut hash t key src).1 k =
        if k = key then some src else lookup hash t k := by
  obtain ⟨hloose, hcap, hlen⟩ := h.loose.put hash key src
  have hput : vhtPut hash t key src = _ := vhtPut_eq
  rw [h.loose.stop_reach] at hput
  cases hstop : stop t.slots (probeSlot hash t.cap) key (reach t.cap) 0 with
  | none => simp [hput, hstop] at hret
  | some i =>
    have hslots : (vhtPut hash t key src).1.slots =
        Function.update t.slots i (some (key, src)) := by
      rw [hput, hstop]
    refine ⟨⟨hloose.pow, hloose.granted, ?_, hloose.len_eq⟩, hcap, hlen, fun k => ?_⟩
    · rw [hcap, hslots]
      exact h.wf.put hstop src
    · rw [lookup, hcap, hslots]
      exact h.wf.find_put (reach_le t.cap) hstop src k

end Inv

theorem put_full (hret : (vhtPut hash t key src).2 ≠ .ok) :
    vhtPut hash t key src = (t, .EXFULL) ∧ vhtStop hash t key = none := by
  rw [vhtPut_eq] at hret ⊢
  cases hstop : vhtStop hash t key with
  | none => exact ⟨rfl, rfl⟩
  | some i => simp [hstop] at hret

theorem inv_init (hash : Bytes keySize → UInt64) {answers : Answers keySize} {n e : Nat} (hn : n = 2 ^ e)
    (ht : _vhtInit valSize answers n = some t) :
    Inv hash t ∧ t.cap = n ∧ t.len = 0 ∧ ∀ k, lookup hash t k = none := by
  unfold _vhtInit at ht
  split at ht
  · cases ht
  · next hsize =>
    have hne : n ≠ 0 := by
      rw [hn]
      exact (Nat.two_pow_pos e).ne'
    simp only [hne, ite_false] at ht
    split at ht
    · cases ht
    · next hkeys =>
      split at ht
      · cases ht
      · cases ht
        rw [Bool.not_eq_false, calloc, Bool.and_eq_true, decide_eq_true_eq] at hkeys
        have hgranted : n * 2 ≤ ptrdiffMax :=
          Nat.le_trans (Nat.mul_le_mul_left n (by rw [vhtKeyBfSize]; omega)) hkeys.2
        have hwf : Wf (probeSlot hash n) (reach n)
            (fun _ => none : Slots (Bytes keySize) (Bytes valSize)) := by
          intro i k v hi
          cases hi
        refine ⟨⟨⟨e, hn⟩, hgranted, hwf, ?_⟩, rfl, rfl, fun k => ?_⟩
        · simp [occupied]
        · exact (hwf.find_eq_none_iff (reach_le n)).mpr fun i v => by simp

section Growth

def storedKeys (t : Vht keySize valSize) : List (Bytes keySize) :=
  (pairs t.slots (reach t.cap)).map Prod.fst

def Stored (t : Vht keySize valSize) (k : Bytes keySize) (v : Bytes valSize) : Prop :=
  ∃ i, t.slots i = some (k, v)

theorem Loose.storedKeys_length (h : Loose t) : (storedKeys t).length = t.len := by
  rw [storedKeys, List.length_map, pairs_length, h.len_eq]

theorem Inv.storedKeys_length (h : Inv hash t) : (storedKeys t).length = t.len :=
  h.loose.storedKeys_length

theorem Inv.mem_storedKeys (h : Inv hash t) : k ∈ storedKeys t ↔ ∃ v, lookup hash t k = some v := by
  simp only [storedKeys, List.mem_map, mem_pairs, h.lookup_iff]
  constructor
  · rintro ⟨⟨k, v⟩, ⟨i, -, hi⟩, rfl⟩
    exact ⟨v, i, hi⟩
  · rintro ⟨v, i, hi⟩
    exact ⟨(k, v), ⟨i, h.slot_lt hi, hi⟩, rfl⟩

theorem Inv.storedKeys_nodup (h : Inv hash t) : (storedKeys t).Nodup := h.wf.pairs_nodup

theorem Loose.len_lt_of_missing (h : Loose t) (h' : Inv hash t')
    (hsub : ∀ k v, lookup hash t' k = some v → ∃ v, Stored t k v) (hkey : Stored t key v)
    (hmissing : lookup hash t' key = none) : t'.len < t.len := by
  have hnot : key ∉ storedKeys t' := by
    rw [h'.mem_storedKeys]
    rintro ⟨v, hv⟩
    rw [hmissing] at hv
    cases hv
  have hheld {k : Bytes keySize} {v : Bytes valSize} (hkv : Stored t k v) : k ∈ storedKeys t := by
    obtain ⟨i, hi⟩ := hkv
    exact List.mem_map.mpr ⟨(k, v), mem_pairs.mpr ⟨i, h.inside i _ hi, hi⟩, rfl⟩
  have hnodup : (key :: storedKeys t').Nodup := List.nodup_cons.mpr ⟨hnot, h'.storedKeys_nodup⟩
  have hsubset : key :: storedKeys t' ⊆ storedKeys t := by
    intro k hk
    rcases List.mem_cons.mp hk with rfl | hk
    · exact hheld hkey
    · obtain ⟨v, hv⟩ := h'.mem_storedKeys.mp hk
      obtain ⟨v, hv⟩ := hsub k v hv
      exact hheld hv
  have hlen := (List.subperm_of_subset hnodup hsubset).length_le
  rw [List.length_cons, h.storedKeys_length, h'.storedKeys_length] at hlen
  exact hlen

theorem Inv.len_congr (h : Inv hash t) (h' : Inv hash t')
    (heq : ∀ k, lookup hash t' k = lookup hash t k) : t'.len = t.len := by
  have hperm : (storedKeys t').Perm (storedKeys t) := by
    refine (List.perm_ext_iff_of_nodup h'.storedKeys_nodup h.storedKeys_nodup).mpr fun k => ?_
    rw [h'.mem_storedKeys, h.mem_storedKeys, heq]
  rw [← h'.storedKeys_length, ← h.storedKeys_length, hperm.length_eq]

def Plain (hash : Bytes keySize → UInt64)
    (set : Nat → Vht keySize valSize → Bytes keySize → Bytes valSize →
      Option (Vht keySize valSize × Ret)) : Prop :=
  ∀ n t k v, Inv hash t → t.len * 4 < t.cap → set n t k v = some (vhtPut hash t k v)

abbrev Map (keySize valSize : Nat) := Finmap fun _ : Bytes keySize => Bytes valSize

theorem lookup_insert {m : Map keySize valSize} {f : Bytes keySize → Option (Bytes valSize)}
    (hm : ∀ k, f k = m.lookup k) (key k : Bytes keySize) (src : Bytes valSize) :
    (if k = key then some src else f k) = (m.insert key src).lookup k := by
  by_cases hk : k = key
  · subst hk
    rw [if_pos rfl, Finmap.lookup_insert]
  · rw [if_neg hk, Finmap.lookup_insert_of_ne _ hk, hm]

variable {m : Map keySize valSize} {l : List (Bytes keySize × Bytes valSize)}

def insertAll (m : Map keySize valSize) (l : List (Bytes keySize × Bytes valSize)) :
    Map keySize valSize :=
  l.foldl (fun m p => m.insert p.1 p.2) m

theorem lookup_insertAll (h : (∃ v, m.lookup k = some v) ∨ ∃ v, (k, v) ∈ l) :
    ∃ v, (insertAll m l).lookup k = some v := by
  induction l generalizing m with
  | nil => exact h.resolve_right (by simp)
  | cons p l ih =>
    refine ih ?_
    by_cases hk : k = p.1
    · exact .inl ⟨p.2, by rw [hk, Finmap.lookup_insert]⟩
    · rw [Finmap.lookup_insert_of_ne _ hk]
      refine h.imp_right fun ⟨v, hv⟩ => ?_
      rcases List.mem_cons.mp hv with rfl | hv
      · exact absurd rfl hk
      · exact ⟨v, hv⟩

variable {start : Bytes keySize} {r n : Nat} {newTable : Vht keySize valSize}

def visited (hash : Bytes keySize → UInt64) (t : Vht keySize valSize) (start : Bytes keySize)
    (r n : Nat) : List (Bytes keySize × Bytes valSize) :=
  (List.range' (r + 1) n).filterMap fun j => t.slots (probeSlot hash t.cap start j)

theorem mem_visited (h : Loose t) : (k, v) ∈ visited hash t start 0 t.cap ↔ Stored t k v := by
  simp only [visited, List.mem_filterMap, List.mem_range'_1]
  constructor
  · rintro ⟨j, -, hj⟩
    exact ⟨_, hj⟩
  · rintro ⟨i, hi⟩
    obtain ⟨j, hj, heq⟩ := probeSlot_surjective hash h.pow start 1 (h.inside i _ hi)
    have hle := reach_le t.cap
    exact ⟨1 + j, by omega, heq.symm ▸ hi⟩

theorem visited_perm (h : Loose t) (hcap : t.cap ≤ 2 ^ 32) :
    (visited hash t start 0 t.cap).Perm (pairs t.slots t.cap) := by
  have hcop := coprime_iterate hash h.pow start
  rw [reach_of_le hcap] at hcop
  have hperm := Stride.perm
    ((vhtHashStart hash start).1.toNat + (vhtHashStart hash start).2.toNat) hcop
  have hwalk : (List.range' 1 t.cap).map (probeSlot hash t.cap start) =
      (List.range t.cap).map fun j => ((vhtHashStart hash start).1.toNat +
        (vhtHashStart hash start).2.toNat + j * (vhtHashStart hash start).2.toNat) % t.cap := by
    rw [List.range'_eq_map_range, List.map_map]
    refine List.map_congr_left fun j _ => ?_
    rw [Function.comp_apply, probeSlot_eq h.pow, reach_of_le hcap, Nat.add_mul, Nat.one_mul,
      Nat.add_assoc]
  rw [← hwalk] at hperm
  have hpairs := hperm.filterMap t.slots
  rwa [List.filterMap_map] at hpairs

structure Moved (hash : Bytes keySize → UInt64) (t : Vht keySize valSize) (r : Nat)
    (m : Map keySize valSize) (newTable : Vht keySize valSize) : Prop where
  inv : Inv hash newTable
  cap_eq : newTable.cap = 4 * t.cap
  len_le : newTable.len ≤ r
  lookup_eq : ∀ k, lookup hash newTable k = m.lookup k
  stored : ∀ k v, m.lookup k = some v → Stored t k v

theorem Moved.skip (hm : Moved hash t r m newTable) : Moved hash t (r + 1) m newTable :=
  { hm with len_le := Nat.le_succ_of_le hm.len_le }

theorem Moved.put (h : Loose t) (hm : Moved hash t r m newTable) (hkv : Stored t k v) :
    (vhtPut hash newTable k v).2 = .ok ∧
      Moved hash t (r + 1) (m.insert k v) (vhtPut hash newTable k v).1 := by
  have hret : (vhtPut hash newTable k v).2 = .ok := by
    by_contra hret
    obtain ⟨hmissing, hfull⟩ := hm.inv.full (put_full hret).2
    have hlt := h.len_lt_of_missing hm.inv
      (fun k v hv => ⟨v, hm.stored k v (hm.lookup_eq k ▸ hv)⟩) hkv hmissing
    have hle := h.len_le
    rw [hm.inv.len_full hfull, hm.cap_eq] at hlt
    simp only [reach] at hlt hle
    omega
  obtain ⟨hinv, hcap, hlen, hlookup⟩ := hm.inv.put hret
  refine ⟨hret, hinv, hcap.trans hm.cap_eq, Nat.le_trans hlen (Nat.succ_le_succ hm.len_le),
    fun k' => (hlookup k').trans (lookup_insert hm.lookup_eq k k' v), fun k' v' hv => ?_⟩
  by_cases hk : k' = k
  · rw [hk, Finmap.lookup_insert, Option.some.injEq] at hv
    rwa [hk, ← hv]
  · rw [Finmap.lookup_insert_of_ne _ hk] at hv
    exact hm.stored k' v' hv

theorem Moved.loop (h : Loose t) (hm : Moved hash t r m newTable) (start : Bytes keySize)
    (hr : r + n = t.cap) :
    ∃ newTable', Moved hash t t.cap (insertAll m (visited hash t start r n)) newTable' ∧
      ∀ set, Plain hash set →
        vhtDoubleLoop set t (vhtHashStart hash start).2 n (vhtOffset hash start r) newTable =
          some (newTable', .ok) := by
  induction n generalizing r m newTable with
  | zero =>
    obtain rfl : r = t.cap := hr
    exact ⟨newTable, hm, fun _ _ => rfl⟩
  | succ n ih =>
    simp only [vhtDoubleLoop, vhtHashNext_offset, vhtHashSlot_offset, visited, List.range'_succ,
      List.filterMap_cons]
    cases hslot : t.slots (probeSlot hash t.cap start (r + 1)) with
    | none => exact ih hm.skip (by omega)
    | some p =>
      obtain ⟨k, v⟩ := p
      obtain ⟨hret, hnext⟩ := hm.put h ⟨_, hslot⟩
      obtain ⟨newTable', hdone, hloop⟩ := ih hnext (by omega)
      refine ⟨newTable', hdone, fun set hset => ?_⟩
      have hroom : newTable.len * 4 < newTable.cap := by
        have hlen := hm.len_le
        rw [hm.cap_eq]
        omega
      have hput : set n newTable k v = some ((vhtPut hash newTable k v).1, .ok) := by
        rw [hset n newTable k v hm.inv hroom, ← hret]
      simp only [hput]
      exact hloop set hset

inductive Grown (hash : Bytes keySize → UInt64) (t : Vht keySize valSize) :
    Vht keySize valSize → Prop
  | failed : Grown hash t t
  | moved {moved : List (Bytes keySize × Bytes valSize)} {grown : Vht keySize valSize} :
      (∀ k v, (k, v) ∈ moved ↔ Stored t k v) →
      (t.cap ≤ 2 ^ 32 → moved.Perm (pairs t.slots t.cap)) →
      Moved hash t t.cap (insertAll ∅ moved) grown → Grown hash t grown

theorem double_spec (salt : Bytes vhtHashSaltLenExpected) (h : Loose t)
    (answers : Answers keySize) :
    ∃ t' ret, (∀ set, Plain hash set → vhtDouble hash salt set answers t = some (t', ret)) ∧
      Grown hash t t' := by
  have hcap : sizeT (4 * t.cap) = 4 * t.cap := sizeT_of_lt (by have := h.cap_lt; omega)
  cases hinit : _vhtInit valSize answers (4 * t.cap) with
  | none =>
    refine ⟨t, .ENOMEM, fun set _ => ?_, .failed⟩
    rw [vhtDouble, hcap, hinit]
  | some newTable =>
    by_cases hstart : answers.start = false
    · refine ⟨t, .ENOMEM, fun set _ => ?_, .failed⟩
      simp only [vhtDouble, hcap, hinit, hstart, ite_true]
    · obtain ⟨e, he⟩ := h.pow
      obtain ⟨hinv, hnewcap, hlen, hnone⟩ := inv_init hash (n := 4 * t.cap) (e := e + 2)
        (by rw [he, Nat.pow_add, Nat.mul_comm]) hinit
      have hm : Moved hash t 0 ∅ newTable := by
        refine ⟨hinv, hnewcap, Nat.le_of_eq hlen, fun k => ?_, fun k v hv => ?_⟩
        · rw [hnone, Finmap.lookup_empty]
        · rw [Finmap.lookup_empty] at hv
          cases hv
      obtain ⟨newTable', hdone, hloop⟩ :=
        hm.loop h (psuedorandomSequence salt answers.memory) (Nat.zero_add _)
      refine ⟨newTable', .ok, fun set hset => ?_,
        .moved (fun k v => mem_visited h) (visited_perm h) hdone⟩
      have hmoved := hloop set hset
      rcases hpair : vhtHashStart hash (psuedorandomSequence salt answers.memory) with
        ⟨offset, iterate⟩
      simp only [vhtOffset, hpair] at hmoved
      simp only [vhtDouble, hcap, hinit, hstart, hpair, hmoved, Bool.true_eq_false, ite_false]

theorem Grown.keeps (h : Inv hash t) (hg : Grown hash t t') :
    Inv hash t' ∧ (∀ k, lookup hash t' k = lookup hash t k) ∧ (t' = t ∨ t'.cap = 4 * t.cap) := by
  cases hg with
  | failed => exact ⟨h, fun _ => rfl, .inl rfl⟩
  | moved hl _ hm =>
    refine ⟨hm.inv, fun k => Option.ext fun v => ?_, .inr hm.cap_eq⟩
    rw [hm.lookup_eq, h.lookup_iff]
    refine ⟨hm.stored k v, fun hkv => ?_⟩
    obtain ⟨v', hv'⟩ := lookup_insertAll (m := ∅) (.inr ⟨v, (hl k v).mpr hkv⟩)
    have hsame := h.lookup_iff.mpr (hm.stored k v' hv')
    rw [h.lookup_iff.mpr hkv, Option.some.injEq] at hsame
    rw [hv', hsame]

theorem plain_vhtSet (salt : Bytes vhtHashSaltLenExpected) (depth : Nat)
    (answers : Nat → List Nat → Answers keySize) :
    Plain hash fun n (newTable : Vht keySize valSize) =>
      vhtSet hash salt (depth + 1) (answers n) newTable := by
  intro n t k v h hroom
  have hlen : ¬ sizeT (t.len * 4) ≥ t.cap := by
    rw [sizeT_of_lt h.len_lt]
    exact Nat.not_le.mpr hroom
  simp only [vhtSet, hlen, ite_false, Option.map_some]
  rfl

/-- `vht_set` never needs a growth inside a growth: two levels of calls are enough. -/
theorem Loose.set_spec (hash : Bytes keySize → UInt64) (salt : Bytes vhtHashSaltLenExpected)
    (h : Loose t)
    (answers : List Nat → Answers keySize) (key : Bytes keySize) (src : Bytes valSize) :
    ∃ grown, Grown hash t grown ∧ ∀ depth, vhtSet hash salt (depth + 2) answers t key src =
      some (vhtPut hash grown key src) := by
  by_cases hgrow : sizeT (t.len * 4) ≥ t.cap
  · obtain ⟨grown, ret, hdouble, hgrown⟩ := double_spec salt h (answers [])
    refine ⟨grown, hgrown, fun depth => ?_⟩
    have hset := hdouble _ (plain_vhtSet salt depth fun n path => answers (n :: path))
    rw [vhtSet]
    simp only [hgrow, ite_true, hset, Option.map_some]
    rfl
  · refine ⟨t, .failed, fun depth => ?_⟩
    rw [vhtSet]
    simp only [hgrow, ite_false, Option.map_some]
    rfl

theorem set_spec (salt : Bytes vhtHashSaltLenExpected) (h : Inv hash t)
    (answers : List Nat → Answers keySize) (key : Bytes keySize) (src : Bytes valSize) :
    ∃ grown, Inv hash grown ∧ (∀ k, lookup hash grown k = lookup hash t k) ∧
      (grown = t ∨ grown.cap = 4 * t.cap) ∧
      ∀ depth, vhtSet hash salt (depth + 2) answers t key src = some (vhtPut hash grown key src) := by
  obtain ⟨grown, hgrown, hset⟩ := h.loose.set_spec hash salt answers key src
  obtain ⟨hinv, hlookup, hcap⟩ := hgrown.keeps h
  exact ⟨grown, hinv, hlookup, hcap, hset⟩

end Growth

end Dert.Vht
