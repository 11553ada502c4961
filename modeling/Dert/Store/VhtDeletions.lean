import Dert.Store.VhtRuns

namespace Dert.Vht

open Library Library.Probe

variable {keySize valSize : Nat} {hash : Bytes keySize → UInt64}
  {salt : Bytes vhtHashSaltLenExpected} {t t' : Vht keySize valSize} {key k : Bytes keySize}
  {src v : Bytes valSize}

section Calls

theorem Loose.stored_iff (h : Loose t) : Stored t k v ↔ (k, v) ∈ pairs t.slots t.cap := by
  rw [mem_pairs]
  constructor
  · rintro ⟨i, hi⟩
    exact ⟨i, Nat.lt_of_lt_of_le (h.inside i _ hi) (reach_le _), hi⟩
  · rintro ⟨i, -, hi⟩
    exact ⟨i, hi⟩

theorem stored_put (h : Stored (vhtPut hash t key src).1 k v) :
    (k = key ∧ v = src) ∨ Stored t k v := by
  rw [vhtPut_eq] at h
  cases hstop : vhtStop hash t key with
  | none =>
    rw [hstop] at h
    exact .inr h
  | some i =>
    rw [hstop] at h
    obtain ⟨i', hi'⟩ := h
    by_cases hii : i' = i
    · simp only [hii, Function.update_self, Option.some.injEq, Prod.mk.injEq] at hi'
      exact .inl ⟨hi'.1.symm, hi'.2.symm⟩
    · simp only [Function.update_of_ne hii] at hi'
      exact .inr ⟨i', hi'⟩

/-- What has just been stored is found, whatever chains are cut. -/
theorem get_put (hret : (vhtPut hash t key src).2 = .ok) :
    vhtGet hash (vhtPut hash t key src).1 key = (.ok, some src) := by
  rw [vhtPut_eq] at hret ⊢
  cases hstop : vhtStop hash t key with
  | none => simp [hstop] at hret
  | some i =>
    have hfind := find_put_self hstop src
    rw [vhtGet_eq, lookup]
    simp only [hfind, reply]

theorem del_cases (hash : Bytes keySize → UInt64) (t : Vht keySize valSize) (key : Bytes keySize) :
    (vhtDel hash t key = (t, .ENODATA) ∧ vhtGet hash t key = (.ENODATA, none)) ∨
      ∃ i v, t.slots i = some (key, v) ∧ vhtGet hash t key = (.ok, some v) ∧ vhtDel hash t key =
        ({ t with slots := Function.update t.slots i none, len := sizeT (t.len + (sizeMax - 1)) },
          .ok) := by
  rw [vhtDel_eq, vhtGet_eq, lookup, find, ← vhtStop]
  cases hstop : vhtStop hash t key with
  | none => exact .inl ⟨rfl, rfl⟩
  | some i =>
    cases hslot : t.slots i with
    | none => exact .inl (by simp [hslot, reply])
    | some p =>
      obtain rfl := held_of_stop hstop hslot
      exact .inr ⟨i, p.2, hslot, by simp [hslot, reply]⟩

theorem Loose.del (h : Loose t) (hash : Bytes keySize → UInt64) (key : Bytes keySize) :
    Loose (vhtDel hash t key).1 ∧ ∀ k v, Stored (vhtDel hash t key).1 k v → Stored t k v := by
  rcases del_cases hash t key with ⟨hdel, -⟩ | ⟨i, v, hi, -, hdel⟩
  · rw [hdel]
    exact ⟨h, fun _ _ hkv => hkv⟩
  have hmem : i ∈ occupied t.slots (reach t.cap) :=
    mem_occupied.mpr ⟨h.inside i _ hi, by rw [hi]; rfl⟩
  have hpos : 0 < t.len := by
    rw [h.len_eq]
    exact Finset.card_pos.mpr ⟨i, hmem⟩
  have hlen : sizeT (t.len + (sizeMax - 1)) = t.len - 1 := by
    have hlt := h.len_lt
    exact sizeT_sub hpos (by omega)
  have hold {i' : Nat} {p : Bytes keySize × Bytes valSize}
      (hp : Function.update t.slots i none i' = some p) : t.slots i' = some p := by
    by_cases hii : i' = i
    · rw [hii, Function.update_self] at hp
      cases hp
    · rwa [Function.update_of_ne hii] at hp
  rw [hdel]
  refine ⟨⟨h.pow, h.granted, fun i' p hp => h.inside i' p (hold hp), ?_⟩, ?_⟩
  · rw [occupied_update_none, Finset.card_erase_of_mem hmem, ← h.len_eq]
    exact hlen
  · rintro k v ⟨i', hi'⟩
    exact ⟨i', hold hi'⟩

theorem Grown.loose (h : Loose t) (hg : Grown hash t t') :
    Loose t' ∧ ∀ k v, Stored t' k v → Stored t k v := by
  cases hg with
  | failed => exact ⟨h, fun _ _ hkv => hkv⟩
  | moved _ _ hm =>
    refine ⟨hm.inv.loose, fun k v hkv => hm.stored k v ?_⟩
    rw [← hm.lookup_eq]
    exact hm.inv.lookup_iff.mpr hkv

end Calls

section Run

variable {tr : List (Vht keySize valSize × Call keySize valSize)}

def SetIn (tr : List (Vht keySize valSize × Call keySize valSize)) (k : Bytes keySize)
    (v : Bytes valSize) : Prop :=
  ∃ s answers, (s, Call.set answers k v) ∈ tr

theorem SetIn.cons {p : Vht keySize valSize × Call keySize valSize} (h : SetIn tr k v) :
    SetIn (p :: tr) k v := by
  obtain ⟨s, answers, hmem⟩ := h
  exact ⟨s, answers, List.mem_cons_of_mem p hmem⟩

theorem loose_run (hr : (machine valSize hash salt).Run tr t) :
    Loose t ∧ ∀ k v, Stored t k v → SetIn tr k v := by
  induction hr with
  | start hinit =>
    obtain ⟨answers, hcreate⟩ := hinit
    obtain ⟨hinv, -, -, hnone⟩ := inv_init hash (e := 4) rfl hcreate
    refine ⟨hinv.loose, fun k v hkv => ?_⟩
    have hlookup := hinv.lookup_iff.mpr hkv
    rw [hnone] at hlookup
    cases hlookup
  | @next tr t call t' _ hs ih =>
    obtain ⟨h, hset⟩ := ih
    cases call with
    | set answers key src =>
      obtain ⟨grown, hgrown, hcall⟩ := h.set_spec hash salt answers key src
      simp only [machine, hcall 0, Option.map_some, Option.some.injEq] at hs
      subst hs
      obtain ⟨hloose, hold⟩ := hgrown.loose h
      refine ⟨(hloose.put hash key src).1, fun k v hkv => ?_⟩
      rcases stored_put hkv with ⟨rfl, rfl⟩ | hkv
      · exact ⟨t, answers, List.mem_cons_self⟩
      · exact (hset k v (hold k v hkv)).cons
    | del key =>
      simp only [machine, Option.some.injEq] at hs
      subst hs
      obtain ⟨hloose, hold⟩ := h.del hash key
      exact ⟨hloose, fun k v hkv => (hset k v (hold k v hkv)).cons⟩

/-- Whatever a run deletes, the length counts the pairs a pass delivers, each of them set by the
run, and `vht_get` and `vht_del` show and remove such a pair or find none. -/
theorem pairs_run (hr : (machine valSize hash salt).Run tr t) (hcap : t.cap ≤ 2 ^ 32) :
    ∃ dests, vhtIterate t (t.cap + 1) 0 = (dests, .ENODATA) ∧ dests.length = vhtLen t ∧
      (∀ k v, (k, v) ∈ dests → SetIn tr k v) ∧
      ∀ key, (vhtGet hash t key = (.ENODATA, none) ∧ vhtDel hash t key = (t, .ENODATA)) ∨
        ∃ v rest, vhtGet hash t key = (.ok, some v) ∧ (vhtDel hash t key).2 = .ok ∧
          vhtIterate (vhtDel hash t key).1 (t.cap + 1) 0 = (rest, .ENODATA) ∧
          dests.Perm ((key, v) :: rest) := by
  obtain ⟨h, hset⟩ := loose_run hr
  refine ⟨pairs t.slots t.cap, vhtIterate_pass hcap, ?_,
    fun k v hkv => hset k v (h.stored_iff.mpr hkv), fun key => ?_⟩
  · rw [pairs_length, vhtLen, h.len_eq, reach_of_le hcap]
  · rcases del_cases hash t key with ⟨hdel, hget⟩ | ⟨i, v, hi, hget, hdel⟩
    · exact .inl ⟨hget, hdel⟩
    · refine .inr ⟨v, pairs (Function.update t.slots i none) t.cap, hget, by rw [hdel], ?_, ?_⟩
      · rw [hdel]
        exact vhtIterate_pass hcap
      · exact pairs_update_none hi (Nat.lt_of_lt_of_le (h.inside i _ hi) (reach_le _))

theorem pairs_run_hidden :
    ∃ tr t, (machine 1 (fun _ : Bytes 1 => 0) (Vector.replicate 16 0)).Run tr t ∧
      vhtGet (fun _ => 0) t #v[2] = (.ENODATA, none) ∧ vhtLen t = 1 ∧
        ∃ dests, vhtIterate t (t.cap + 1) 0 = (dests, .ENODATA) ∧ dests.length = vhtLen t ∧
          ∀ k v, (k, v) ∈ dests → SetIn tr k v := by
  obtain ⟨tr, t, hr, ht⟩ := Machine.exists_run_of_exec
    (machine 1 (fun _ : Bytes 1 => 0) (Vector.replicate 16 0))
    ⟨fun _ => none, 0, 16⟩ [.set granting #v[1] #v[7], .set granting #v[2] #v[8], .del #v[1]]
    (fun t => vhtGet (fun _ => 0) t #v[2] = (.ENODATA, none) ∧ vhtLen t = 1 ∧ t.cap ≤ 2 ^ 32)
    ⟨granting [], rfl⟩ (by decide)
  simp only [decide_eq_true_eq] at ht
  obtain ⟨dests, hpass, hlen, hset, -⟩ := pairs_run hr ht.2.2
  exact ⟨tr, t, hr, ht.1, ht.2.1, dests, hpass, hlen, hset⟩

/-- Whatever was deleted before, `vht_set` returns, and `vht_get` then shows what it has set.
When the table has grown it shows the map that the pairs of the old one add up to, set one after
the other, and every key is found again. -/
theorem set_run (hr : (machine valSize hash salt).Run tr t)
    (answers : List Nat → Answers keySize) (key : Bytes keySize) (src : Bytes valSize) :
    ∃ t' ret,
      (∀ depth, vhtSet hash salt (depth + 2) answers t key src = some (t', ret)) ∧
      (t'.cap ≤ 2 ^ 32 →
        (ret = .EXFULL ∧ t' = t ∧ ∀ i < t.cap, (t.slots i).isSome) ∨
        (ret = .ok ∧ vhtGet hash t' key = (.ok, some src) ∧
          (t'.cap = t.cap ∨ ∃ dests moved, vhtIterate t (t.cap + 1) 0 = (dests, .ENODATA) ∧
            moved.Perm dests ∧ Agrees hash t' ((insertAll ∅ moved).insert key src)))) := by
  obtain ⟨h, -⟩ := loose_run hr
  obtain ⟨grown, hgrown, hcall⟩ := h.set_spec hash salt answers key src
  refine ⟨(vhtPut hash grown key src).1, (vhtPut hash grown key src).2, hcall, fun hle => ?_⟩
  obtain ⟨hloose, -⟩ := hgrown.loose h
  have hcap := (hloose.put hash key src).2.1
  rw [hcap] at hle ⊢
  by_cases hret : (vhtPut hash grown key src).2 = .ok
  · refine .inr ⟨hret, get_put hret, ?_⟩
    cases hgrown with
    | failed => exact .inl rfl
    | moved _ hperm hm =>
      have hold : t.cap ≤ 2 ^ 32 := by
        have hfour := hm.cap_eq
        omega
      obtain ⟨hinv, -, -, hput⟩ := hm.inv.put hret
      refine .inr ⟨_, _, vhtIterate_pass hold, hperm hold, hinv.agrees (hcap ▸ hle) fun k => ?_⟩
      rw [hput, lookup_insert hm.lookup_eq]
  · obtain ⟨hput, hstop⟩ := put_full hret
    have hfull := hloose.full hstop
    rw [hput]
    cases hgrown with
    | failed =>
      rw [reach_of_le hle] at hfull
      exact .inl ⟨rfl, rfl, hfull⟩
    | moved _ _ hm =>
      have hlen := hloose.len_full hfull
      have hpos := reach_pos hloose.pow
      have hfour := hm.cap_eq
      have hmoved := hm.len_le
      rw [reach_of_le hle] at hlen hpos
      omega

def eights (k : Bytes 1) : UInt64 := (k.toList.headD 0 / 8).toUInt64 * 8

theorem set_run_grown :
    ∃ tr t, (machine 1 eights (Vector.replicate 16 0)).Run tr t ∧
      vhtGet eights t #v[2] = (.ENODATA, none) ∧
        ∃ t', (∀ depth, vhtSet eights (Vector.replicate 16 0) (depth + 2) granting t #v[11]
            #v[9] = some (t', .ok)) ∧ vhtGet eights t' #v[2] = (.ok, some #v[6]) ∧
          ∃ dests moved, vhtIterate t (t.cap + 1) 0 = (dests, .ENODATA) ∧ moved.Perm dests ∧
            Agrees eights t' ((insertAll ∅ moved).insert #v[11] #v[9]) := by
  obtain ⟨tr, t, hr, ht⟩ := Machine.exists_run_of_exec
    (machine 1 eights (Vector.replicate 16 0))
    ⟨fun _ => none, 0, 16⟩ [.set granting #v[1] #v[5], .set granting #v[2] #v[6],
      .set granting #v[9] #v[7], .set granting #v[10] #v[8], .del #v[1],
      .set granting #v[12] #v[8]]
    (fun t => decide (vhtGet eights t #v[2] = (.ENODATA, none)) &&
      (vhtSet eights (Vector.replicate 16 0) 2 granting t #v[11] #v[9]).any
        fun (p : Vht 1 1 × Ret) => decide (p.2 = .ok ∧ p.1.cap ≤ 2 ^ 32 ∧ p.1.cap ≠ t.cap ∧
          vhtGet eights p.1 #v[2] = (.ok, some #v[6])))
    ⟨granting [], rfl⟩ (by decide)
  rw [Bool.and_eq_true, decide_eq_true_eq] at ht
  obtain ⟨hhidden, hset⟩ := ht
  obtain ⟨t', ret, hcall, hlaw⟩ := set_run hr granting #v[11] #v[9]
  rw [hcall 0, Option.any_some, decide_eq_true_eq] at hset
  obtain ⟨rfl, hle, hgrown, hfound⟩ := hset
  rcases hlaw hle with ⟨hret, -⟩ | ⟨-, -, hcap | hmap⟩
  · cases hret
  · exact absurd hcap hgrown
  · exact ⟨tr, t, hr, hhidden, t', hcall, hfound, hmap⟩

end Run

end Dert.Vht
