import Dert.Library.Machine
import Dert.Store.VhtGrowth
import Mathlib.Data.Set.Card

namespace Dert.Vht

open Library Library.Probe

variable {keySize valSize : Nat} {hash : Bytes keySize → UInt64}
  {salt : Bytes vhtHashSaltLenExpected} {t : Vht keySize valSize} {key k : Bytes keySize}
  {src v : Bytes valSize}

section Iterate

def rest (t : Vht keySize valSize) (offset n : Nat) : List (Bytes keySize × Bytes valSize) :=
  (List.range' offset n).filterMap t.slots

theorem vhtHashSlot_ofNat {offset : Nat} (hcap : t.cap ≤ 2 ^ 32) (hlt : offset < t.cap) :
    vhtHashSlot t (UInt32.ofNat offset) = offset := by
  rw [vhtHashSlot, UInt32.toNat_ofNat_of_lt' (Nat.lt_of_lt_of_le hlt hcap), Nat.mod_eq_of_lt hlt]

theorem vhtIterateNextLoop_eq (hcap : t.cap ≤ 2 ^ 32) {n offset : Nat} (hn : offset + n = t.cap) :
    (rest t offset n = [] ∧ vhtIterateNextLoop t n offset = (t.cap, .ENODATA, none)) ∨
      ∃ dest offset' n', offset' + n' = t.cap ∧ n' < n ∧
        rest t offset n = dest :: rest t offset' n' ∧
        vhtIterateNextLoop t n offset = (offset', .ok, some dest) := by
  induction n generalizing offset with
  | zero =>
    obtain rfl : offset = t.cap := hn
    exact Or.inl ⟨rfl, rfl⟩
  | succ n ih =>
    rw [vhtIterateNextLoop, vhtHashSlot_ofNat hcap (by omega)]
    cases hslot : t.slots offset with
    | some dest =>
      refine Or.inr ⟨dest, offset + 1, n, by omega, Nat.lt_succ_self n, ?_, rfl⟩
      simp [rest, List.range'_succ, hslot]
    | none =>
      have hrest : rest t offset (n + 1) = rest t (offset + 1) n := by
        simp [rest, List.range'_succ, hslot]
      rw [hrest]
      have hnext : offset + 1 + n = t.cap := by omega
      rcases ih hnext with hnil | ⟨dest, offset', n', hn', hlt, hcons⟩
      · exact Or.inl hnil
      · exact Or.inr ⟨dest, offset', n', hn', Nat.lt_succ_of_lt hlt, hcons⟩

theorem vhtIterate_eq (hcap : t.cap ≤ 2 ^ 32) {calls n offset : Nat} (hn : offset + n = t.cap)
    (hcalls : n < calls) : vhtIterate t calls offset = (rest t offset n, .ENODATA) := by
  induction calls generalizing offset n with
  | zero => omega
  | succ calls ih =>
    have hleft : t.cap - offset = n := by omega
    rw [vhtIterate, vhtIterateNext, hleft]
    rcases vhtIterateNextLoop_eq hcap hn with ⟨hnil, hnext⟩ | ⟨dest, offset', n', hn', hlt, hcons, hnext⟩
    · rw [hnext, hnil]
    · simp only [hnext, hcons, ih hn' (by omega)]

/-- A full pass delivers every stored pair once and then ENODATA. -/
theorem vhtIterate_pass (hcap : t.cap ≤ 2 ^ 32) :
    vhtIterate t (t.cap + 1) 0 = (pairs t.slots t.cap, .ENODATA) := by
  rw [vhtIterate_eq hcap (Nat.zero_add _) (Nat.lt_succ_self _), rest, pairs, List.range_eq_range']

end Iterate

def toSigma (p : Bytes keySize × Bytes valSize) : (_ : Bytes keySize) × Bytes valSize := ⟨p.1, p.2⟩

structure Agrees (hash : Bytes keySize → UInt64) (t : Vht keySize valSize)
    (m : Map keySize valSize) : Prop where
  get : ∀ k, vhtGet hash t k = reply (m.lookup k)
  len : vhtLen t = m.keys.card
  pass : ∃ dests, vhtIterate t (t.cap + 1) 0 = (dests, .ENODATA) ∧
    (dests.map toSigma : Multiset _) = m.entries

theorem Inv.entries_eq (h : Inv hash t) {m : Map keySize valSize}
    (hm : ∀ k, lookup hash t k = m.lookup k) :
    ((pairs t.slots t.cap).map toSigma : Multiset _) = m.entries := by
  have hnodup : ((pairs t.slots t.cap).map toSigma).Nodup := by
    refine List.Nodup.of_map Sigma.fst ?_
    rw [List.map_map]
    exact h.wf.pairs_nodup
  refine (Multiset.Nodup.ext (Multiset.coe_nodup.mpr hnodup) m.nodup_entries).mpr fun ⟨k, v⟩ => ?_
  rw [← Finmap.lookup_eq_some_iff, ← hm k]
  rw [h.lookup_iff, Multiset.mem_coe, List.mem_map]
  constructor
  · rintro ⟨⟨k', v'⟩, hmem, heq⟩
    obtain ⟨i, -, hi⟩ := mem_pairs.mp hmem
    cases heq
    exact ⟨i, hi⟩
  · rintro ⟨i, hi⟩
    exact ⟨(k, v), mem_pairs.mpr ⟨i, Nat.lt_of_lt_of_le (h.slot_lt hi) (reach_le _), hi⟩, rfl⟩

theorem Inv.agrees (h : Inv hash t) (hcap : t.cap ≤ 2 ^ 32) {m : Map keySize valSize}
    (hm : ∀ k, lookup hash t k = m.lookup k) : Agrees hash t m := by
  have hentries := h.entries_eq hm
  refine ⟨fun k => ?_, ?_, ⟨_, vhtIterate_pass hcap, hentries⟩⟩
  · rw [vhtGet_eq, hm]
  · have hcard := congrArg Multiset.card hentries
    rw [Multiset.coe_card, List.length_map] at hcard
    have hkeys : m.keys.card = Multiset.card m.entries := Multiset.card_map _ _
    rw [hkeys, ← hcard, pairs_length, vhtLen, h.len_eq, reach_of_le hcap]

section SetOnly

structure SetState (keySize valSize : Nat) where
  table : Vht keySize valSize
  map : Map keySize valSize

structure SetCall (keySize valSize : Nat) where
  answers : List Nat → Answers keySize
  key : Bytes keySize
  src : Bytes valSize

def setMachine (valSize : Nat) (hash : Bytes keySize → UInt64)
    (salt : Bytes vhtHashSaltLenExpected) :
    Machine (SetState keySize valSize) (SetCall keySize valSize) where
  init s := ∃ answers, vhtCreate valSize answers = some s.table ∧ s.map = ∅
  step s call :=
    (vhtSet hash salt 2 call.answers s.table call.key call.src).map fun (table, ret) =>
      ⟨table, if ret = .ok then s.map.insert call.key call.src else s.map⟩

/-- `vht_set` returns, however deep its calls may nest beyond two, and either updates the
map or finds the table full without the key and changes nothing. -/
def SetLaw (hash : Bytes keySize → UInt64) (salt : Bytes vhtHashSaltLenExpected)
    (s : SetState keySize valSize) (call : SetCall keySize valSize) : Prop :=
  ∃ table ret,
    (∀ depth, vhtSet hash salt (depth + 2) call.answers s.table call.key call.src =
      some (table, ret)) ∧
    (table.cap ≤ 2 ^ 32 →
      (ret = .ok ∧ Agrees hash table (s.map.insert call.key call.src)) ∨
      (ret = .EXFULL ∧ s.map.lookup call.key = none ∧
        (∀ i < s.table.cap, (s.table.slots i).isSome) ∧ table = s.table))

theorem setInv_step {s s' : SetState keySize valSize} {call : SetCall keySize valSize}
    (h : Inv hash s.table) (hm : ∀ k, lookup hash s.table k = s.map.lookup k)
    (hs : (setMachine valSize hash salt).step s call = some s') :
    Inv hash s'.table ∧ ∀ k, lookup hash s'.table k = s'.map.lookup k := by
  obtain ⟨grown, hgrown, hlookup, -, hset⟩ :=
    set_spec salt h call.answers call.key call.src
  simp only [setMachine, hset 0, Option.map_some, Option.some.injEq] at hs
  subst hs
  have hm' (k : Bytes keySize) : lookup hash grown k = s.map.lookup k := (hlookup k).trans (hm k)
  by_cases hret : (vhtPut hash grown call.key call.src).2 = .ok
  · obtain ⟨hinv, -, -, hput⟩ := hgrown.put hret
    refine ⟨hinv, fun k => ?_⟩
    simp only [hret, ite_true, hput, lookup_insert hm']
  · simp only [(put_full hret).1]
    exact ⟨hgrown, hm'⟩

theorem setLaw_of_inv {s : SetState keySize valSize} (h : Inv hash s.table)
    (hm : ∀ k, lookup hash s.table k = s.map.lookup k) (call : SetCall keySize valSize) :
    SetLaw hash salt s call := by
  obtain ⟨grown, hgrown, hlookup, hcap, hset⟩ :=
    set_spec salt h call.answers call.key call.src
  refine ⟨(vhtPut hash grown call.key call.src).1, (vhtPut hash grown call.key call.src).2, hset,
    fun hle => ?_⟩
  by_cases hret : (vhtPut hash grown call.key call.src).2 = .ok
  · obtain ⟨hinv, -, -, hput⟩ := hgrown.put hret
    refine Or.inl ⟨hret, hinv.agrees hle fun k => ?_⟩
    rw [hput, lookup_insert fun k => (hlookup k).trans (hm k)]
  · obtain ⟨hput, hstop⟩ := put_full hret
    obtain ⟨hmissing, hfull⟩ := hgrown.full hstop
    rw [hput] at hle ⊢
    have hreach := reach_of_le hle
    have hsame : grown = s.table := by
      refine hcap.resolve_right fun hfour => ?_
      have hlen := h.len_congr hgrown hlookup
      rw [hgrown.len_full hfull, hreach, hfour] at hlen
      have hle' := Nat.le_trans h.len_le (reach_le _)
      have hpos := Nat.lt_of_lt_of_le (reach_pos h.pow) (reach_le _)
      omega
    subst hsame
    exact Or.inr ⟨rfl, by rw [← hm]; exact hmissing, by rwa [hreach] at hfull, rfl⟩

theorem setInv {tr : List (SetState keySize valSize × SetCall keySize valSize)}
    {s : SetState keySize valSize} (hr : (setMachine valSize hash salt).Run tr s) :
    Inv hash s.table ∧ ∀ k, lookup hash s.table k = s.map.lookup k := by
  refine hr.always ?_ fun _ _ _ h hs => setInv_step h.1 h.2 hs
  rintro s ⟨answers, hcreate, hmap⟩
  obtain ⟨hinv, -, -, hnone⟩ := inv_init hash (e := 4) rfl hcreate
  refine ⟨hinv, fun k => ?_⟩
  rw [hnone, hmap, Finmap.lookup_empty]

/-- Every table `vht_set` alone builds, of up to `2 ^ 32` slots, shows the map of its calls,
and the next call of `vht_set` obeys the map law. -/
theorem setOnly {tr : List (SetState keySize valSize × SetCall keySize valSize)}
    {s : SetState keySize valSize} (hr : (setMachine valSize hash salt).Run tr s)
    (hcap : s.table.cap ≤ 2 ^ 32) :
    Agrees hash s.table s.map ∧ ∀ call, SetLaw hash salt s call :=
  ⟨(setInv hr).1.agrees hcap (setInv hr).2, setLaw_of_inv (setInv hr).1 (setInv hr).2⟩

def granting (_ : List Nat) : Answers keySize := ⟨true, true, true, Vector.replicate keySize 0⟩

theorem setOnly_two :
    ∃ tr s, (setMachine 1 (fun k : Bytes 1 => k[0].toUInt64) (Vector.replicate 16 0)).Run tr s ∧
      s.table.len = 2 ∧ Agrees (fun k => k[0].toUInt64) s.table s.map ∧
        ∀ call, SetLaw (fun k => k[0].toUInt64) (Vector.replicate 16 0) s call := by
  obtain ⟨tr, s, hr, hs⟩ := Machine.exists_run_of_exec
    (setMachine 1 (fun k : Bytes 1 => k[0].toUInt64) (Vector.replicate 16 0))
    ⟨⟨fun _ => none, 0, 16⟩, ∅⟩ [⟨granting, #v[1], #v[7]⟩, ⟨granting, #v[17], #v[8]⟩]
    (fun s => s.table.len = 2 ∧ s.table.cap ≤ 2 ^ 32) ⟨granting [], rfl, rfl⟩ (by decide)
  simp only [decide_eq_true_eq] at hs
  exact ⟨tr, s, hr, hs.1, setOnly hr hs.2⟩

end SetOnly

section Deletion

theorem vhtDel_held (h : Inv hash t) {i : Nat} (hi : t.slots i = some (key, v)) :
    vhtDel hash t key =
      ({ t with slots := Function.update t.slots i none, len := t.len - 1 }, .ok) := by
  have hlen : 0 < t.len := by
    rw [h.len_eq]
    exact Finset.card_pos.mpr ⟨i, mem_occupied.mpr ⟨h.slot_lt hi, by rw [hi]; rfl⟩⟩
  have hsub : sizeT (t.len + (sizeMax - 1)) = t.len - 1 := by
    have hlt := h.len_lt
    exact sizeT_sub hlen (by omega)
  have hstop : vhtStop hash t key = some i := h.wf.stop_of_held (reach_le _) hi
  simp only [vhtDel_eq, hstop, hi, Option.isSome_some, ite_true, hsub]

theorem vhtDel_missing (h : Inv hash t) (hmissing : lookup hash t key = none) :
    vhtDel hash t key = (t, .ENODATA) := by
  rw [vhtDel_eq]
  cases hstop : vhtStop hash t key with
  | none => rfl
  | some i =>
    cases hi : t.slots i with
    | none => simp [hi]
    | some p =>
      obtain ⟨k, v⟩ := p
      obtain rfl : k = key := held_of_stop hstop hi
      rw [h.lookup_iff.mpr ⟨i, hi⟩] at hmissing
      cases hmissing

theorem Inv.del (h : Inv hash t) {i : Nat} (hi : t.slots i = some (key, v))
    (hfree : Untangled (probeSlot hash t.cap) t.slots i) :
    Inv hash { t with slots := Function.update t.slots i none, len := t.len - 1 } := by
  refine ⟨h.pow, h.granted, h.wf.remove hfree, ?_⟩
  have hmem : i ∈ occupied t.slots (reach t.cap) :=
    mem_occupied.mpr ⟨h.slot_lt hi, by rw [hi]; rfl⟩
  rw [occupied_update_none, Finset.card_erase_of_mem hmem, ← h.len_eq]

theorem Inv.ncard_eq (h : Inv hash t) : {k | (vhtGet hash t k).1 = .ok}.ncard = t.len := by
  have hset : {k | (vhtGet hash t k).1 = .ok} = ↑(storedKeys t).toFinset := by
    ext k
    rw [List.coe_toFinset, Set.mem_ofPred_eq, Set.mem_ofPred_eq, h.mem_storedKeys, vhtGet_eq]
    cases lookup hash t k <;> simp [reply]
  rw [hset, Set.ncard_coe_finset, List.toFinset_card_of_nodup h.storedKeys_nodup,
    h.storedKeys_length]

/-- What a deletion should do: find the key exactly when `vht_get` does, and then leave
the table without it and with everything else. -/
structure DelLaw (hash : Bytes keySize → UInt64) (t : Vht keySize valSize)
    (key : Bytes keySize) : Prop where
  found : (vhtDel hash t key).2 = .ok ↔ (vhtGet hash t key).1 = .ok
  gone : vhtGet hash (vhtDel hash t key).1 key = (.ENODATA, none)
  others : ∀ k, k ≠ key → vhtGet hash (vhtDel hash t key).1 k = vhtGet hash t k
  len : vhtLen (vhtDel hash t key).1 =
    {k | (vhtGet hash (vhtDel hash t key).1 k).1 = .ok}.ncard

/-- No other stored key's probe sequence passes through the slot of `key` before it
reaches its own. -/
def Unshared (hash : Bytes keySize → UInt64) (t : Vht keySize valSize) (key : Bytes keySize) : Prop :=
  ∀ i v, t.slots i = some (key, v) → Untangled (probeSlot hash t.cap) t.slots i

theorem delLaw_iff (h : Inv hash t) (key : Bytes keySize) : DelLaw hash t key ↔ Unshared hash t key := by
  cases hfind : lookup hash t key with
  | none =>
    have hdel := vhtDel_missing h hfind
    have hshared : Unshared hash t key := fun i v hi => by
      rw [h.lookup_iff.mpr ⟨i, hi⟩] at hfind
      cases hfind
    have hget : vhtGet hash t key = (.ENODATA, none) := by
      rw [vhtGet_eq, hfind]
      rfl
    refine ⟨fun _ => hshared, fun _ => ⟨?_, ?_, ?_, ?_⟩⟩
    · rw [hdel, hget]
    · rw [hdel, hget]
    · rw [hdel]
      exact fun _ _ => rfl
    · rw [hdel, h.ncard_eq]
      rfl
  | some v =>
    obtain ⟨i, hi⟩ := h.lookup_iff.mp hfind
    have hdel := vhtDel_held h hi
    have hget : vhtGet hash t key = (.ok, some v) := by
      rw [vhtGet_eq, hfind]
      rfl
    constructor
    · intro hlaw i' v' hi'
      obtain rfl := h.wf.unique hi hi'
      by_contra hcut
      obtain ⟨k, v', hk, hfound, hhidden⟩ := h.wf.exists_hidden (reach_le _) hi hcut
      have hsame := hlaw.others k hk
      rw [hdel, vhtGet_eq, vhtGet_eq, lookup, lookup, hhidden, hfound] at hsame
      cases hsame
    · intro hshared
      have hfree := hshared i v hi
      refine ⟨?_, ?_, fun k hk => ?_, ?_⟩
      · rw [hdel, hget]
      · rw [hdel, vhtGet_eq, lookup, h.wf.find_remove_self (reach_le _) hi]
        rfl
      · rw [hdel, vhtGet_eq, vhtGet_eq, lookup, lookup,
          h.wf.find_remove (reach_le _) hi hfree hk]
      · rw [hdel, (h.del hi hfree).ncard_eq, vhtLen]

inductive Call (keySize valSize : Nat)
  | set (answers : List Nat → Answers keySize) (key : Bytes keySize) (src : Bytes valSize)
  | del (key : Bytes keySize)

def machine (valSize : Nat) (hash : Bytes keySize → UInt64) (salt : Bytes vhtHashSaltLenExpected) :
    Machine (Vht keySize valSize) (Call keySize valSize) where
  init t := ∃ answers, vhtCreate valSize answers = some t
  step t
    | .set answers key src => (vhtSet hash salt 2 answers t key src).map Prod.fst
    | .del key => some (vhtDel hash t key).1

/-- Every deletion of a run obeys its law exactly when none empties a slot on another
key's way. -/
theorem delLaw_run_iff {tr : List (Vht keySize valSize × Call keySize valSize)}
    (hr : (machine valSize hash salt).Run tr t) :
    (∀ p ∈ tr, ∀ key, p.2 = .del key → DelLaw hash p.1 key) ↔
      ∀ p ∈ tr, ∀ key, p.2 = .del key → Unshared hash p.1 key := by
  refine hr.steps_iff (I := Inv hash) (L := fun t call => ∀ key, call = .del key → DelLaw hash t key)
    (G := fun t call => ∀ key, call = .del key → Unshared hash t key) ?_ ?_ ?_
  · rintro t ⟨answers, hcreate⟩
    exact (inv_init hash (e := 4) rfl hcreate).1
  · intro t call t' h hG hs
    cases call with
    | set answers key src =>
      obtain ⟨grown, hgrown, -, -, hset⟩ := set_spec salt h answers key src
      simp only [machine, hset 0, Option.map_some, Option.some.injEq] at hs
      subst hs
      by_cases hret : (vhtPut hash grown key src).2 = .ok
      · exact (hgrown.put hret).1
      · rw [(put_full hret).1]
        exact hgrown
    | del key =>
      simp only [machine, Option.some.injEq] at hs
      subst hs
      cases hfind : lookup hash t key with
      | none =>
        rw [vhtDel_missing h hfind]
        exact h
      | some v =>
        obtain ⟨i, hi⟩ := h.lookup_iff.mp hfind
        rw [vhtDel_held h hi]
        exact h.del hi (hG key rfl i v hi)
  · intro t call t' h _
    simp only [delLaw_iff h]

theorem delLaw_run_iff_apart :
    ∃ tr t, (machine 1 (fun k : Bytes 1 => k[0].toUInt64) (Vector.replicate 16 0)).Run tr t ∧
      t.len = 1 ∧ ((∀ p ∈ tr, ∀ key, p.2 = .del key → DelLaw (fun k => k[0].toUInt64) p.1 key) ↔
        ∀ p ∈ tr, ∀ key, p.2 = .del key → Unshared (fun k => k[0].toUInt64) p.1 key) := by
  obtain ⟨tr, t, hr, ht⟩ := Machine.exists_run_of_exec
    (machine 1 (fun k : Bytes 1 => k[0].toUInt64) (Vector.replicate 16 0))
    ⟨fun _ => none, 0, 16⟩ [.set granting #v[1] #v[7], .set granting #v[2] #v[8], .del #v[1]]
    (fun t => t.len = 1) ⟨granting [], rfl⟩ (by decide)
  simp only [decide_eq_true_eq] at ht
  exact ⟨tr, t, hr, ht, delLaw_run_iff hr⟩

/-- Two keys with one hash: deleting the first hides the second. -/
theorem not_delLaw_collision :
    ¬ ∀ (tr : List (Vht 1 1 × Call 1 1)) (t : Vht 1 1),
      (machine 1 (fun _ : Bytes 1 => 0) (Vector.replicate 16 0)).Run tr t →
        ∀ key, DelLaw (fun _ => 0) t key := by
  obtain ⟨tr, t, hr, ht⟩ := Machine.exists_run_of_exec
    (machine 1 (fun _ : Bytes 1 => 0) (Vector.replicate 16 0))
    ⟨fun _ => none, 0, 16⟩ [.set granting #v[1] #v[7], .set granting #v[2] #v[8]]
    (fun t => vhtGet (fun _ => 0) t #v[2] = (.ok, some #v[8]) ∧
      vhtGet (fun _ => 0) (vhtDel (fun _ => 0) t #v[1]).1 #v[2] = (.ENODATA, none))
    ⟨granting [], rfl⟩ (by decide)
  simp only [decide_eq_true_eq] at ht
  intro hlaw
  have hsame := (hlaw tr t hr #v[1]).others #v[2] (by decide)
  rw [ht.1, ht.2] at hsame
  cases hsame

end Deletion

end Dert.Vht
