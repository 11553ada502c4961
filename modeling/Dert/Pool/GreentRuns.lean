import Dert.Pool.GreentSwitch

namespace Dert.GreentAsm

open X86 Library Library.Memory

structure ReturnsFrom (a u : Cpu) (value : Nat) : Prop where
  rip : u.rip = load a.ram (a.reg .rsp)
  rax : u.reg .rax = value
  rsp : u.reg .rsp = a.reg .rsp + 8
  regs : ∀ r, r.isSaved → r ≠ .rsp → u.reg r = a.reg r

structure Worker where
  base : Nat
  memcpy : Cpu → Cpu
  depth : Nat
  bottom : Nat
  vert : Nat
  root : Cpu

namespace Worker

variable (w : Worker)

def code : Code := GreentAsm.code w.base w.memcpy

def top : Nat := w.root.reg .rsp + 8

structure Calls : Prop where
  memcpy : IsMemcpy w.depth w.memcpy
  code : w.base + text.length ≤ sizeMax
  rip : w.root.rip = w.base + rootEntry
  rdi : w.root.reg .rdi = w.vert
  vert : w.vert + 72 ≤ sizeMax
  stack : w.vert + 72 ≤ w.bottom ∨ w.top ≤ w.vert
  below : w.bottom ≤ w.root.reg .rsp
  top : w.top < sizeMax
  caller : w.code.Outside (load w.root.ram (w.root.reg .rsp))

structure Yields (g : Nat) (s : Cpu) : Prop where
  rip : s.rip = w.base + yieldEntry
  rdi : s.reg .rdi = g
  null : g ≠ 0
  thread : g + 1104 ≤ sizeMax
  apart : g + 1104 ≤ w.vert ∨ w.vert + 72 ≤ g
  stack : g + 1104 ≤ w.bottom ∨ w.top ≤ g
  parent : load s.ram (g + GREENT_PARENT_OFFSET) = w.vert
  room : w.bottom + w.depth + 64 ≤ s.reg .rsp
  below : s.reg .rsp + 8 ≤ w.top
  size : w.top ≤ low s + 1024
  caller : w.code.Outside (load s.ram (s.reg .rsp))

structure Resumes (g : Nat) (s : Cpu) : Prop where
  rip : s.rip = w.base + resumeEntry
  rdi : s.reg .rdi = g
  rsp : s.reg .rsp + 8 = w.top

end Worker

inductive Event
  | other
  | yield (g : Nat) (s : Cpu)
  | resume (g : Nat)

def held : List Event → Nat → Option Cpu
  | [], _ => none
  | .other :: es, g => held es g
  | .yield g' s :: es, g => if g = g' then some s else held es g
  | .resume g' :: es, g => if g = g' then none else held es g

def Guarded (vert : Nat) (es : List Event) (i : Nat) : Prop :=
  (vert ≤ i ∧ i < vert + 72) ∨ ∃ g a, held es g = some a ∧ g ≤ i ∧ i < g + 1096

inductive Run (w : Worker) : List Event → Cpu → Prop
  | root {u} : w.code.Returns w.root u → Run w [] u
  | other {es s s'} : Run w es s → (∀ i, Guarded w.vert es i → s'.ram.cells i = s.ram.cells i) →
      Run w (.other :: es) s'
  | yield {es s g u} : Run w es s → w.Yields g s →
      (∀ g' a, held es g' = some a → g' ≠ g → g + 1104 ≤ g' ∨ g' + 1104 ≤ g) →
      w.code.Returns s u → Run w (.yield g s :: es) u
  | resume {es s g a u} : Run w es s → w.Resumes g s → held es g = some a →
      w.code.Returns s u → Run w (.resume g :: es) u

section Calls

variable {w : Worker} {g : Nat} {s a : Cpu}

theorem Worker.Yields.placed (hcalls : w.Calls) (h : w.Yields g s) :
    Placed g w.vert w.bottom w.top :=
  ⟨h.thread, hcalls.vert, h.apart, h.stack, hcalls.stack⟩

theorem root_returns (hcalls : w.Calls) :
    ∃ u, w.code.Returns w.root u ∧ Rooted w.base u.ram w.vert w.root ∧ ReturnsFrom w.root u 0 := by
  have hstack := hcalls.stack
  have hbelow := hcalls.below
  obtain ⟨u, hgoes, hrooted, hrip, hrax, hrsp, hregs, -⟩ := root_goes w.memcpy
    hcalls.code hcalls.rip hcalls.rdi hcalls.vert (by rw [Worker.top] at hstack; omega) hcalls.top
  exact ⟨u, ⟨hgoes, hrip ▸ hcalls.caller⟩, hrooted, hrip, hrax, hrsp, hregs⟩

theorem yield_returns (hcalls : w.Calls) (hrooted : Rooted w.base s.ram w.vert w.root)
    (h : w.Yields g s) :
    ∃ u, w.code.Returns s u ∧ Holds w.base w.top u.ram g s ∧ ReturnsFrom w.root u g ∧
      ∀ i, (i < g ∨ g + 1096 ≤ i) → (i < w.bottom ∨ w.top ≤ i) →
        u.ram.cells i = s.ram.cells i := by
  have hplaced := h.placed hcalls
  have hroom := h.room
  have hbelow := h.below
  have hlow := low_le s
  obtain ⟨hthread, hvert, hapart, hts, hvs⟩ := id hplaced
  have htop : load s.ram (w.vert + VERT_RSP_OFFSET) = w.top := hrooted.rsp
  obtain ⟨d, hgoes, hholds, hdrip, hdax, hdreg, hdcells⟩ := yield_goes hcalls.memcpy hcalls.code
    hplaced h.rip h.rdi h.parent htop (by omega) hbelow h.size
  have hdrooted : Rooted w.base d.ram w.vert w.root :=
    hrooted.congr fun i _ _ => hdcells i (by omega) (by omega)
  have hdp : load d.ram (g + GREENT_PARENT_OFFSET) = w.vert := by
    rw [← h.parent]
    exact load_congr fun i _ _ => hdcells i (by simp at *; omega) (by simp at *; omega)
  have hdsp : d.reg .rsp = w.top := (hdreg .rsp rfl).trans htop
  obtain ⟨u, hgoes', hurip, hurax, hureg, hucells⟩ := rootAgain_goes w.memcpy
    hthread hvert (hdrip.trans hrooted.rip) hdax h.null hdp (by omega)
  have hcaller : u.rip = load w.root.ram (w.root.reg .rsp) := hurip.trans hdrooted.caller
  refine ⟨u, ⟨hgoes.trans hgoes', hcaller ▸ hcalls.caller⟩, ?_, ⟨hcaller, hurax, ?_, ?_⟩, ?_⟩
  · exact hholds.congr h.size (by omega) fun i _ _ => hucells i (by omega)
  · exact (hureg .rsp rfl).trans hdsp
  · intro r hr hrsp
    rw [hureg r hr, hdreg r hr, hrooted.regs r hr hrsp]
  · intro i hi hi'
    exact (hucells i (by omega)).trans (hdcells i hi hi')

theorem resume_returns (hcalls : w.Calls) (ha : w.Yields g a)
    (hholds : Holds w.base w.top s.ram g a) (h : w.Resumes g s) :
    ∃ u, w.code.Returns s u ∧ ReturnsFrom a u (s.reg .rsi) ∧
      (∀ i, a.reg .rsp ≤ i → i < w.top → u.ram.cells i = a.ram.cells i) ∧
      ∀ i, (i < w.bottom ∨ w.top ≤ i) → u.ram.cells i = s.ram.cells i := by
  obtain ⟨u, hgoes, hrip, hrax, hrsp, hregs, hframes, hrest⟩ := resume_goes hcalls.memcpy
    (ha.placed hcalls) h.rip h.rdi h.rsp hcalls.top hholds ha.room ha.below ha.size
  exact ⟨u, ⟨hgoes, hrip ▸ ha.caller⟩, ⟨hrip, hrax, hrsp, hregs⟩, hframes, hrest⟩

end Calls

/-- The vert holds the call of `greent_root`, and each green thread that has yielded its call
of `greent_yield`. -/
structure Kept (w : Worker) (es : List Event) (s : Cpu) : Prop where
  rooted : Rooted w.base s.ram w.vert w.root
  yields : ∀ g a, held es g = some a → w.Yields g a
  holds : ∀ g a, held es g = some a → Holds w.base w.top s.ram g a
  apart : ∀ g g' a a', held es g = some a → held es g' = some a' → g' ≠ g →
    g + 1104 ≤ g' ∨ g' + 1104 ≤ g

section Steps

variable {w : Worker} {es : List Event} {g : Nat} {s s' a u : Cpu}

theorem Kept.other (h : Kept w es s)
    (hs : ∀ i, Guarded w.vert es i → s'.ram.cells i = s.ram.cells i) :
    Kept w (.other :: es) s' where
  rooted := h.rooted.congr fun i hi hlt => hs i (.inl ⟨hi, hlt⟩)
  yields := h.yields
  holds g a hg := by
    have hy := h.yields g a hg
    have hbelow := hy.below
    exact (h.holds g a hg).congr hy.size (by omega) fun i hi hlt => hs i (.inr ⟨g, a, hg, hi, hlt⟩)
  apart := h.apart

theorem Kept.yield (hcalls : w.Calls) (h : Kept w es s) (hy : w.Yields g s)
    (hapart : ∀ g' a, held es g' = some a → g' ≠ g → g + 1104 ≤ g' ∨ g' + 1104 ≤ g)
    (hu : w.code.Returns s u) : Kept w (.yield g s :: es) u := by
  obtain ⟨t, ht, hholds, -, hcells⟩ := yield_returns hcalls h.rooted hy
  obtain rfl := hu.unique ht
  have hstack := hcalls.stack
  have hy' := hy.apart
  refine ⟨?_, fun g' a hg' => ?_, fun g' a hg' => ?_, fun g' g'' a a' hg' hg'' hne => ?_⟩
  · exact h.rooted.congr fun i _ _ => hcells i (by omega) (by omega)
  · rw [held] at hg'
    split at hg'
    next heq =>
      cases hg'
      exact heq ▸ hy
    next => exact h.yields g' a hg'
  · rw [held] at hg'
    split at hg'
    next heq =>
      cases hg'
      exact heq ▸ hholds
    next hne =>
      have ha := h.yields g' a hg'
      have hbelow := ha.below
      have ha' := ha.stack
      have hg := hapart g' a hg' hne
      exact (h.holds g' a hg').congr ha.size (by omega) fun i _ _ =>
        hcells i (by omega) (by omega)
  · rw [held] at hg' hg''
    split at hg' <;> split at hg''
    next heq heq' => exact absurd (heq'.trans heq.symm) hne
    next heq hne' => exact heq ▸ hapart g'' a' hg'' hne'
    next hne' heq => exact heq ▸ (hapart g' a hg' hne').symm
    next => exact h.apart g' g'' a a' hg' hg'' hne

theorem Kept.resume (hcalls : w.Calls) (h : Kept w es s) (hr : w.Resumes g s)
    (hg : held es g = some a) (hu : w.code.Returns s u) : Kept w (.resume g :: es) u := by
  obtain ⟨t, ht, -, -, hcells⟩ := resume_returns hcalls (h.yields g a hg) (h.holds g a hg) hr
  obtain rfl := hu.unique ht
  have hstack := hcalls.stack
  have hheld {g' : Nat} {a' : Cpu} (hg' : held (.resume g :: es) g' = some a') :
      held es g' = some a' := by
    rw [held] at hg'
    split at hg'
    next => cases hg'
    next => exact hg'
  refine ⟨?_, fun g' a' hg' => h.yields g' a' (hheld hg'), fun g' a' hg' => ?_,
    fun g' g'' a a' hg' hg'' => h.apart g' g'' a a' (hheld hg') (hheld hg'')⟩
  · exact h.rooted.congr fun i _ _ => hcells i (by omega)
  · have ha := h.yields g' a' (hheld hg')
    have hbelow := ha.below
    have ha' := ha.stack
    exact (h.holds g' a' (hheld hg')).congr ha.size (by omega) fun i _ _ => hcells i (by omega)

theorem Run.kept (hcalls : w.Calls) (hrun : Run w es s) : Kept w es s := by
  induction hrun with
  | root hu =>
    obtain ⟨t, ht, hrooted, -⟩ := root_returns hcalls
    obtain rfl := hu.unique ht
    exact ⟨hrooted, nofun, nofun, nofun⟩
  | other _ hs ih => exact ih.other hs
  | yield _ hy hapart hu ih => exact ih.yield hcalls hy hapart hu
  | resume _ hr hg hu ih => exact ih.resume hcalls hr hg hu

/-- Whatever green threads have yielded and been resumed before: one that yields is what the
worker's call of `greent_root` returns once more, and one that is resumed returns from its own
last call of `greent_yield`, with the frames between the two calls as they were.  The frames
of the worker itself are nowhere put back to what they were. -/
theorem switches (hcalls : w.Calls) (hrun : Run w es s) :
    (∀ g, w.Yields g s → ∃ u, w.code.Returns s u ∧ ReturnsFrom w.root u g ∧
      ∀ i, w.top ≤ i → (i < g ∨ g + 1096 ≤ i) → u.ram.cells i = s.ram.cells i) ∧
    ∀ g a, w.Resumes g s → held es g = some a →
      ∃ u, w.code.Returns s u ∧ ReturnsFrom a u (s.reg .rsi) ∧
        (∀ i, a.reg .rsp ≤ i → i < w.top → u.ram.cells i = a.ram.cells i) ∧
        ∀ i, w.top ≤ i → u.ram.cells i = s.ram.cells i := by
  have hkept := hrun.kept hcalls
  refine ⟨fun g hy => ?_, fun g a hr hg => ?_⟩
  · obtain ⟨u, hu, -, hfrom, hcells⟩ := yield_returns hcalls hkept.rooted hy
    exact ⟨u, hu, hfrom, fun i hi hi' => hcells i hi' (.inr hi)⟩
  · obtain ⟨u, hu, hfrom, hframes, hcells⟩ := resume_returns hcalls (hkept.yields g a hg)
      (hkept.holds g a hg) hr
    exact ⟨u, hu, hfrom, hframes, fun i hi => hcells i (.inr hi)⟩

end Steps

section Call

def copyBytes (s : Cpu) : Cpu :=
  { s with ram := s.ram.memcpy (s.reg .rdi) (s.ram.bytes (s.reg .rsi) (s.reg .rdx)) }

theorem isMemcpy_copyBytes (depth : Nat) : IsMemcpy depth copyBytes where
  saved _ _ := rfl
  copied := by
    intro s i _ hi
    refine (write_inside ⟨Nat.le_add_right _ _, ?_⟩).trans ?_
    · simpa [Extent.stop, Ram.bytes] using hi
    · rw [Nat.add_sub_cancel_left, List.getD_eq_getElem _ _ (by simpa [Ram.bytes] using hi)]
      simp [Ram.bytes]
  kept := by
    intro s i _ hi _
    refine write_outside fun hhas => ?_
    simp [Extent.Has, Extent.stop, Ram.bytes] at hhas
    omega

def calling (rip rdi rsp : Nat) (ram : Ram) : Cpu where
  reg
    | .rdi => sizeT rdi
    | .rsp => sizeT rsp
    | _ => 0
  zf := false
  rip
  ram
  reg_lt r := by
    cases r <;> first | exact sizeT_lt _ | exact Nat.two_pow_pos 64

theorem load_zero (a : Nat) : load ⟨fun _ => 0, []⟩ a = 0 := loadPointer_zero fun _ _ => rfl

def worker : Worker :=
  ⟨4096, copyBytes, 8, 30000, 50000, calling 4096 50000 39992 ⟨fun _ => 0, []⟩⟩

theorem worker_calls : worker.Calls := by
  constructor
  · exact isMemcpy_copyBytes 8
  · decide
  · rfl
  · decide
  · decide
  · exact .inr (by decide)
  · decide
  · decide
  · exact .inl (by rw [show worker.root.ram = ⟨fun _ => 0, []⟩ from rfl, load_zero]; decide)

theorem switches_once : ∃ es s g a u, Run worker es s ∧ worker.Resumes g s ∧
    held es g = some a ∧ worker.code.Returns s u ∧ ReturnsFrom a u (s.reg .rsi) := by
  obtain ⟨r, hr, -⟩ := root_returns worker_calls
  let m := store (store r.ram 39000 0) 21096 50000
  let a := calling (4096 + yieldEntry) 20000 39000 m
  have hrun : Run worker [.other] a := .other (.root hr) fun i hi => by
    rcases hi with ⟨hi, hlt⟩ | ⟨g, s, hg, -⟩
    · rw [show worker.vert = 50000 from rfl] at hi
      exact (cells_store_outside (by omega)).trans (cells_store_outside (by omega))
    · cases hg
  have hy : worker.Yields 20000 a := by
    have hrsp : a.reg .rsp = 39000 := rfl
    have hcaller : load a.ram (a.reg .rsp) = 0 := by
      rw [hrsp]
      exact (load_store_apart (by decide)).trans (load_store_self _ _ _)
    exact {
      rip := rfl
      rdi := rfl
      null := by decide
      thread := by decide
      apart := .inl (by decide)
      stack := .inl (by decide)
      parent := load_store_self _ _ _
      room := by rw [hrsp]; decide
      below := by rw [hrsp]; decide
      size := by rw [low, hrsp]; decide
      caller := .inl (by rw [hcaller]; decide) }
  obtain ⟨v, hv, -⟩ := (switches worker_calls hrun).1 20000 hy
  let s := calling (4096 + resumeEntry) 20000 39992 v.ram
  have hrun' : Run worker [.other, .yield 20000 a, .other] s :=
    .other (.yield hrun hy (fun _ _ h => absurd h (by simp [held])) hv) fun _ _ => rfl
  have hres : worker.Resumes 20000 s := ⟨rfl, rfl, rfl⟩
  obtain ⟨u, hu, hfrom, -⟩ := (switches worker_calls hrun').2 20000 a hres rfl
  exact ⟨_, s, 20000, a, u, hrun', hres, rfl, hu, hfrom⟩

end Call

section Overflow

variable {memcpy : Cpu → Cpu} {base depth g p q bottom top top' : Nat} {s : Cpu}

/-- When the frames of a green thread take 1040 bytes or more, the copy of them runs over the
size and the parent that the green thread keeps behind them: `greent_yield` goes on where a
word of these frames points to, and not to where the parent's `greent_root` was called. -/
theorem yield_overflows (hlib : IsMemcpy depth memcpy) (hcode : base + text.length ≤ sizeMax)
    (hplaced : Placed g p bottom top) (hrip : s.rip = base + yieldEntry)
    (hrdi : s.reg .rdi = g) (hp : load s.ram (g + GREENT_PARENT_OFFSET) = p)
    (htop : load s.ram (p + VERT_RSP_OFFSET) = top)
    (hbottom : bottom + depth + 40 ≤ s.reg .rsp) (hsp : s.reg .rsp + 8 ≤ top)
    (hsize : low s + 1040 ≤ top) (hfits : g + 64 + (top - low s) ≤ sizeMax)
    (hroom : g + 64 + (top - low s) ≤ bottom ∨ top ≤ g)
    (hq : load s.ram (low s + 1032) = q) (hqtop : load s.ram (q + VERT_RSP_OFFSET) = top')
    (hqplaced : Placed g q (top' - 8) top') (hpush : 8 ≤ top')
    (hqapart : g + 64 + (top - low s) ≤ q ∨ q + 72 ≤ g)
    (hqstack : s.reg .rsp ≤ q ∨ q + 72 ≤ bottom) :
    ∃ u, (code base memcpy).Goes s u ∧ u.rip = load s.ram (q + VERT_RIP_OFFSET) ∧
      u.reg .rax = g ∧ (∀ r, r.isSaved → u.reg r = load s.ram (q + offset r)) ∧
      load u.ram (g + GREENT_TOP_OF_FRAME_OFFSET) = load s.ram (low s + 1024) := by
  have hlow := low_le s
  have hlow' := lt_low s
  obtain ⟨d, hgoes, hdrip, hd, hdcells⟩ :=
    yield_copies hlib hplaced hrip hrdi hp htop hbottom hsp hfits hroom
  have hqload {k : Nat} (hk : k + 8 ≤ 72) : load d.ram (q + k) = load s.ram (q + k) :=
    load_congr fun i _ _ => hdcells i (by omega) (by omega)
  have hframe {k : Nat} (hk : 1024 ≤ k) (hk' : k + 8 ≤ 1040) :
      load d.ram (g + 64 + k) = load s.ram (low s + k) := by
    refine load_shift fun i hi => ?_
    rw [sizeofPointer] at hi
    rw [← hd.frames (low s + k + i) (by omega) (by omega), Nat.add_assoc (low s),
      Nat.add_sub_cancel_left, ← Nat.add_assoc]
  have hbuffer : load d.ram (d.reg .rbp - 8) = g := by
    rw [hd.rbp, Nat.sub_sub]
    exact hd.buffer
  obtain ⟨u, hgoes', hurip, hurax, hureg, -, -, hucells⟩ := yield_switches hcode hqplaced hdrip
    (by rw [hd.rbp]; omega) hbuffer ((hframe (k := 1032) (by omega) (by omega)).trans hq)
    ((hqload (by simp)).trans hqtop) (by omega)
  obtain ⟨hthread, -, -, hstack, -⟩ := id hqplaced
  refine ⟨u, hgoes.trans hgoes', hurip.trans (hqload (by simp)), hurax, fun r hr => ?_, ?_⟩
  · exact (hureg r hr).trans (hqload (by cases r <;> simp [offset]))
  · rw [← hframe (k := 1024) (by omega) (by omega)]
    exact load_congr fun i hi hlt => hucells i (by simp at *; omega) (by simp at *; omega)

def overflowing : Cpu :=
  calling (4096 + yieldEntry) 20000 38000
    (store (store (store (store (store ⟨fun _ => 0, []⟩ 21096 50000) 50040 40000) 39000 60000)
      60040 45000) 60056 7777)

theorem yield_overflows_once :
    ∃ u, (code 4096 copyBytes).Goes overflowing u ∧ u.rip = 7777 := by
  have hrsp : overflowing.reg .rsp = 38000 := rfl
  have hlow : low overflowing = 37968 := by rw [low, hrsp]
  have hword {a : Nat} (ha : a + 8 ≤ 60056 ) (ha' : a + 8 ≤ 60040 ∨ 60048 ≤ a) :
      load overflowing.ram a = load (store (store (store ⟨fun _ => 0, []⟩ 21096 50000) 50040 40000)
        39000 60000) a :=
    (load_store_apart (by omega)).trans (load_store_apart (by omega))
  have hparent : load overflowing.ram 21096 = 50000 := by
    rw [hword (by decide) (by decide), load_store_apart (by decide), load_store_apart (by decide),
      load_store_self]
    rfl
  have hstack : load overflowing.ram 50040 = 40000 := by
    rw [hword (by decide) (by decide), load_store_apart (by decide), load_store_self]
    rfl
  have hframe : load overflowing.ram 39000 = 60000 := by
    rw [hword (by decide) (by decide), load_store_self]
    rfl
  have htop : load overflowing.ram 60040 = 45000 :=
    (load_store_apart (by decide)).trans (load_store_self _ _ _)
  have hrip : load overflowing.ram 60056 = 7777 := load_store_self _ _ _
  have hplaced : Placed 20000 50000 30000 40000 :=
    ⟨by decide, by decide, .inl (by decide), .inl (by decide), .inr (by decide)⟩
  have helsewhere : Placed 20000 60000 (45000 - 8) 45000 :=
    ⟨by decide, by decide, .inl (by decide), .inl (by decide), .inr (by decide)⟩
  obtain ⟨u, hgoes, hurip, -⟩ := yield_overflows (isMemcpy_copyBytes 8) (by decide) hplaced rfl rfl
    hparent hstack (by rw [hrsp]; decide) (by rw [hrsp]; decide) (by rw [hlow]; decide)
    (by rw [hlow]; decide) (by rw [hlow]; exact .inl (by decide)) (by rw [hlow]; exact hframe) htop
    helsewhere (by decide) (by rw [hlow]; exact .inl (by decide)) (.inl (by rw [hrsp]; decide))
  exact ⟨u, hgoes, hurip.trans hrip⟩

end Overflow

end Dert.GreentAsm
