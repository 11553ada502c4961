import Dert.Pool.Gtpoolrr
import Dert.Pool.GtpoolrrHandles
import Dert.Queue.QueueLayout
import Dert.Store.VpoolLaws

namespace Dert

open Library

/-- The sizes of the types of the system's own threads. -/
structure Pthread where
  sizeofThread : Nat
  sizeofCond : Nat
  sizeofMutex : Nat

section Tpoolrr

def sizeofTpoolrr : Nat := 104

def sizeofTpoolrrWorkerArg : Nat := 16

def sizeofTpoolrrJob : Nat := 56

def sizeofTpoolrrThreadState : Nat := 4

variable (pthread : Pthread) (threadCount jobsPerThread : Nat)

def tpoolrrAdvise : Nat :=
  sizeT (sizeofTpoolrr +
    sizeT (threadCount * pthread.sizeofThread) +
    sizeT (threadCount * sizeofTpoolrrWorkerArg) +
    aqueueAdvisev threadCount sizeofTpoolrrJob jobsPerThread +
    aqueueAdvisev threadCount sizeofTpoolrrJob jobsPerThread +
    sizeT (threadCount * sizeofTpoolrrThreadState) +
    sizeT (threadCount * sizeofTpoolrrThreadState) +
    sizeT (threadCount * pthread.sizeofCond) +
    sizeT (threadCount * pthread.sizeofMutex))

def tpoolrrTotal : Nat :=
  sizeofTpoolrr +
    threadCount * pthread.sizeofThread +
    threadCount * sizeofTpoolrrWorkerArg +
    threadCount * (sizeofAqueue + jobsPerThread * sizeofTpoolrrJob) +
    threadCount * (sizeofAqueue + jobsPerThread * sizeofTpoolrrJob) +
    threadCount * sizeofTpoolrrThreadState +
    threadCount * sizeofTpoolrrThreadState +
    threadCount * pthread.sizeofCond +
    threadCount * pthread.sizeofMutex

structure Tpoolrr where
  pool : Nat
  threads : Nat
  workerArgs : Nat
  jobSubmissionQueues : Nat
  jobCompletionQueues : Nat
  desiredStates : Nat
  currentStates : Nat
  conditions : Nat
  conditionMutexes : Nat

def tpoolrrInit (memory : Nat) : Option Tpoolrr :=
  if threadCount = 0 ∨ jobsPerThread = 0 then none
  else
    let pool := memory
    let threads := pool + sizeofTpoolrr
    let workerArgs := threads + sizeT (threadCount * pthread.sizeofThread)
    let jobSubmissionQueues := workerArgs + sizeT (threadCount * sizeofTpoolrrWorkerArg)
    let jobCompletionQueues :=
      jobSubmissionQueues + aqueueAdvisev threadCount sizeofTpoolrrJob jobsPerThread
    let desiredStates :=
      jobCompletionQueues + aqueueAdvisev threadCount sizeofTpoolrrJob jobsPerThread
    let currentStates := desiredStates + sizeT (threadCount * sizeofTpoolrrThreadState)
    let conditions := currentStates + sizeT (threadCount * sizeofTpoolrrThreadState)
    let conditionMutexes := conditions + sizeT (threadCount * pthread.sizeofCond)
    some { pool, threads, workerArgs, jobSubmissionQueues, jobCompletionQueues, desiredStates,
           currentStates, conditions, conditionMutexes }

def Tpoolrr.regions (p : Tpoolrr) : List Extent :=
  ⟨p.pool, sizeofTpoolrr⟩ ::
  ⟨p.threads, threadCount * pthread.sizeofThread⟩ ::
  ⟨p.workerArgs, threadCount * sizeofTpoolrrWorkerArg⟩ ::
  (aqueueInitvRegions threadCount p.jobSubmissionQueues sizeofTpoolrrJob jobsPerThread ++
    (aqueueInitvRegions threadCount p.jobCompletionQueues sizeofTpoolrrJob jobsPerThread ++
      [⟨p.desiredStates, threadCount * sizeofTpoolrrThreadState⟩,
       ⟨p.currentStates, threadCount * sizeofTpoolrrThreadState⟩,
       ⟨p.conditions, threadCount * pthread.sizeofCond⟩,
       ⟨p.conditionMutexes, threadCount * pthread.sizeofMutex⟩]))

end Tpoolrr

section Gtpoolrr

def sizeofGtpoolrr : Nat := 112

def sizeofGtpoolrrWorkerArg : Nat := 16

def sizeofGtpoolrrThreadState : Nat := 4

variable (pthread : Pthread) (threadCount jobsPerThread : Nat)

def gtpoolrrAdvise : Nat :=
  sizeT (sizeofGtpoolrr +
    sizeT (threadCount * pthread.sizeofThread) +
    sizeT (threadCount * vpoolAdvise jobsPerThread greentAdvise) +
    vpoolAdvise (sizeT (threadCount * jobsPerThread)) sizeofGtpoolrrJob +
    vqueueAdvisev threadCount jobsPerThread sizeofPointer +
    sizeT (threadCount * sizeofGtpoolrrWorkerArg) +
    aqueueAdvisev threadCount sizeofPointer jobsPerThread +
    aqueueAdvisev threadCount sizeofPointer jobsPerThread +
    sizeT (threadCount * sizeofGtpoolrrThreadState) +
    sizeT (threadCount * sizeofGtpoolrrThreadState))

def gtpoolrrTotal : Nat :=
  sizeofGtpoolrr +
    threadCount * pthread.sizeofThread +
    threadCount * (sizeofVpool + jobsPerThread * greentAdvise) +
    (sizeofVpool + threadCount * jobsPerThread * sizeofGtpoolrrJob) +
    threadCount * (sizeofVqueue + jobsPerThread * sizeofPointer) +
    threadCount * sizeofGtpoolrrWorkerArg +
    threadCount * (sizeofAqueue + jobsPerThread * sizeofPointer) +
    threadCount * (sizeofAqueue + jobsPerThread * sizeofPointer) +
    threadCount * sizeofGtpoolrrThreadState +
    threadCount * sizeofGtpoolrrThreadState

structure Gtpoolrr where
  pool : Nat
  threads : Nat
  greenThreads : Nat
  jobs : Nat
  readyThreads : Nat
  workerArgs : Nat
  jobSubmissionQueues : Nat
  jobCompletionQueues : Nat
  desiredStates : Nat
  currentStates : Nat

def gtpoolrrInit (memory : Nat) : Option Gtpoolrr :=
  if threadCount = 0 ∨ jobsPerThread = 0 then none
  else
    let pool := memory
    let threads := pool + sizeofGtpoolrr
    let greenThreads := threads + sizeT (threadCount * pthread.sizeofThread)
    let jobs := greenThreads + sizeT (threadCount * vpoolAdvise jobsPerThread greentAdvise)
    let readyThreads := jobs + vpoolAdvise (sizeT (threadCount * jobsPerThread)) sizeofGtpoolrrJob
    let workerArgs := readyThreads + vqueueAdvisev threadCount jobsPerThread sizeofPointer
    let jobSubmissionQueues := workerArgs + sizeT (threadCount * sizeofGtpoolrrWorkerArg)
    let jobCompletionQueues :=
      jobSubmissionQueues + aqueueAdvisev threadCount sizeofPointer jobsPerThread
    let desiredStates :=
      jobCompletionQueues + aqueueAdvisev threadCount sizeofPointer jobsPerThread
    let currentStates := desiredStates + sizeT (threadCount * sizeofGtpoolrrThreadState)
    some { pool, threads, greenThreads, jobs, readyThreads, workerArgs, jobSubmissionQueues,
           jobCompletionQueues, desiredStates, currentStates }

def Gtpoolrr.greenPool (p : Gtpoolrr) (i : Nat) : Nat :=
  p.greenThreads + sizeT (i * vpoolAdvise jobsPerThread greentAdvise)

def Gtpoolrr.regions (p : Gtpoolrr) : List Extent :=
  ⟨p.pool, sizeofGtpoolrr⟩ ::
  ⟨p.threads, threadCount * pthread.sizeofThread⟩ ::
  ((List.range threadCount).map (fun i =>
      ⟨p.greenPool jobsPerThread i, sizeofVpool + jobsPerThread * greentAdvise⟩) ++
    ⟨p.jobs, sizeofVpool + threadCount * jobsPerThread * sizeofGtpoolrrJob⟩ ::
    (vqueueInitvRegions threadCount p.readyThreads sizeofPointer jobsPerThread ++
      ⟨p.workerArgs, threadCount * sizeofGtpoolrrWorkerArg⟩ ::
      (aqueueInitvRegions threadCount p.jobSubmissionQueues sizeofPointer jobsPerThread ++
        (aqueueInitvRegions threadCount p.jobCompletionQueues sizeofPointer jobsPerThread ++
          [⟨p.desiredStates, threadCount * sizeofGtpoolrrThreadState⟩,
           ⟨p.currentStates, threadCount * sizeofGtpoolrrThreadState⟩]))))

end Gtpoolrr

section Laws

variable {pthread : Pthread} {threadCount jobsPerThread : Nat}

theorem tpoolrr_fills (hthreads : 0 < threadCount) (hjobs : 0 < jobsPerThread)
    (hsize : tpoolrrTotal pthread threadCount jobsPerThread < sizeMax) (memory : Nat) :
    ∃ p, tpoolrrInit pthread threadCount jobsPerThread memory = some p ∧
      Extent.Fills ⟨memory, tpoolrrAdvise pthread threadCount jobsPerThread⟩
        (p.regions pthread threadCount jobsPerThread) := by
  have htotal := hsize
  simp only [tpoolrrTotal] at hsize
  have hthread : threadCount * pthread.sizeofThread < sizeMax := by omega
  have harg : threadCount * sizeofTpoolrrWorkerArg < sizeMax := by omega
  have hqueue : threadCount * (sizeofAqueue + jobsPerThread * sizeofTpoolrrJob) < sizeMax := by omega
  have hstate : threadCount * sizeofTpoolrrThreadState < sizeMax := by omega
  have hcond : threadCount * pthread.sizeofCond < sizeMax := by omega
  have hmutex : threadCount * pthread.sizeofMutex < sizeMax := by omega
  have hqueues : aqueueAdvisev threadCount sizeofTpoolrrJob jobsPerThread =
    threadCount * (sizeofAqueue + jobsPerThread * sizeofTpoolrrJob) := arrayAdvisev_eq hthreads hqueue
  have hadvise : tpoolrrAdvise pthread threadCount jobsPerThread =
      tpoolrrTotal pthread threadCount jobsPerThread := by
    simp only [tpoolrrAdvise, sizeT_of_lt hthread, sizeT_of_lt harg, hqueues, sizeT_of_lt hstate,
      sizeT_of_lt hcond, sizeT_of_lt hmutex]
    exact sizeT_of_lt htotal
  rw [tpoolrrInit, if_neg (by omega)]
  refine ⟨_, rfl, Extent.Tiles.fills (a := ⟨memory, _⟩) ?_ (by simp [Tpoolrr.regions])⟩
  have hregions (memory : Nat) := arrayInitv_tiles memory hthreads hqueue
  simp only [Tpoolrr.regions, sizeT_of_lt hthread, sizeT_of_lt harg, hqueues, sizeT_of_lt hstate,
    sizeT_of_lt hcond, hadvise]
  refine ⟨rfl, rfl, rfl, (hregions _).append ((hregions _).append ⟨rfl, rfl, rfl, rfl, ?_⟩)⟩
  simp only [Extent.tiles_nil, Extent.stop, tpoolrrTotal]
  omega

/-- The sizes that `gtpoolrr_init` computes do not wrap when their sum does not. -/
structure Fitting (pthread : Pthread) (threadCount jobsPerThread : Nat) : Prop where
  thread : sizeT (threadCount * pthread.sizeofThread) = threadCount * pthread.sizeofThread
  greenPool : vpoolAdvise jobsPerThread greentAdvise = sizeofVpool + jobsPerThread * greentAdvise
  greenPools : ∀ i ≤ threadCount, sizeT (i * vpoolAdvise jobsPerThread greentAdvise) =
    i * (sizeofVpool + jobsPerThread * greentAdvise)
  jobs : vpoolAdvise (sizeT (threadCount * jobsPerThread)) sizeofGtpoolrrJob =
    sizeofVpool + threadCount * jobsPerThread * sizeofGtpoolrrJob
  ready : vqueueAdvisev threadCount jobsPerThread sizeofPointer =
    threadCount * (sizeofVqueue + jobsPerThread * sizeofPointer)
  arg : sizeT (threadCount * sizeofGtpoolrrWorkerArg) = threadCount * sizeofGtpoolrrWorkerArg
  queue : aqueueAdvisev threadCount sizeofPointer jobsPerThread =
    threadCount * (sizeofAqueue + jobsPerThread * sizeofPointer)
  state : sizeT (threadCount * sizeofGtpoolrrThreadState) = threadCount * sizeofGtpoolrrThreadState

theorem gtpoolrr_fitting (hthreads : 0 < threadCount)
    (hsize : gtpoolrrTotal pthread threadCount jobsPerThread < sizeMax) :
    Fitting pthread threadCount jobsPerThread := by
  simp only [gtpoolrrTotal] at hsize
  have hgreen : threadCount * (sizeofVpool + jobsPerThread * greentAdvise) < sizeMax := by omega
  have hone := Nat.le_mul_of_pos_left (sizeofVpool + jobsPerThread * greentAdvise) hthreads
  have hjobs : sizeofVpool + threadCount * jobsPerThread * sizeofGtpoolrrJob < sizeMax := by omega
  have hjob := Nat.le_mul_of_pos_right (threadCount * jobsPerThread)
    (show 0 < sizeofGtpoolrrJob by decide)
  have hready : threadCount * (sizeofVqueue + jobsPerThread * sizeofPointer) < sizeMax := by omega
  have hqueue : threadCount * (sizeofAqueue + jobsPerThread * sizeofPointer) < sizeMax := by omega
  have hpool : vpoolAdvise jobsPerThread greentAdvise =
    sizeofVpool + jobsPerThread * greentAdvise := Vpool.advise_eq (by decide) (by omega)
  refine ⟨sizeT_of_lt (by omega), hpool, fun i hi => ?_, ?_, ?_, sizeT_of_lt (by omega),
    arrayAdvisev_eq hthreads hqueue, sizeT_of_lt (by omega)⟩
  · have hle := Nat.mul_le_mul_right (sizeofVpool + jobsPerThread * greentAdvise) hi
    rw [hpool]
    exact sizeT_of_lt (by omega)
  · have hproduct : threadCount * jobsPerThread < sizeMax := by omega
    rw [sizeT_of_lt hproduct]
    exact Vpool.advise_eq (by decide) hjobs
  · rw [Nat.mul_comm jobsPerThread]
    rw [Nat.mul_comm jobsPerThread] at hready
    exact arrayAdvisev_eq hthreads hready

theorem gtpoolrrAdvise_eq (hthreads : 0 < threadCount)
    (hsize : gtpoolrrTotal pthread threadCount jobsPerThread < sizeMax) :
    gtpoolrrAdvise pthread threadCount jobsPerThread =
      gtpoolrrTotal pthread threadCount jobsPerThread := by
  have h := gtpoolrr_fitting hthreads hsize
  simp only [gtpoolrrAdvise, h.thread, h.greenPools _ (Nat.le_refl _), h.jobs, h.ready, h.arg,
    h.queue, h.state]
  exact sizeT_of_lt hsize

theorem gtpoolrr_fills (hthreads : 0 < threadCount) (hjobs : 0 < jobsPerThread)
    (hsize : gtpoolrrTotal pthread threadCount jobsPerThread < sizeMax) (memory : Nat) :
    ∃ p, gtpoolrrInit pthread threadCount jobsPerThread memory = some p ∧
      Extent.Fills ⟨memory, gtpoolrrAdvise pthread threadCount jobsPerThread⟩
        (p.regions pthread threadCount jobsPerThread) := by
  have h := gtpoolrr_fitting hthreads hsize
  have hgreen : sizeT (threadCount * vpoolAdvise jobsPerThread greentAdvise) =
    threadCount * (sizeofVpool + jobsPerThread * greentAdvise) := h.greenPools _ (Nat.le_refl _)
  have hadvise := gtpoolrrAdvise_eq hthreads hsize
  simp only [gtpoolrrTotal] at hsize
  have hready : threadCount * (sizeofVqueue + jobsPerThread * sizeofPointer) < sizeMax := by omega
  have hqueue : threadCount * (sizeofAqueue + jobsPerThread * sizeofPointer) < sizeMax := by omega
  have hreadies (memory : Nat) := arrayInitv_tiles memory hthreads hready
  have hqueues (memory : Nat) := arrayInitv_tiles memory hthreads hqueue
  have hpools (p : Gtpoolrr) : (List.range threadCount).map (fun i =>
      (⟨p.greenPool jobsPerThread i, sizeofVpool + jobsPerThread * greentAdvise⟩ : Extent)) =
      (List.range threadCount).map fun i =>
        ⟨p.greenThreads + i * (sizeofVpool + jobsPerThread * greentAdvise),
          sizeofVpool + jobsPerThread * greentAdvise⟩ := by
    refine List.map_congr_left fun i hi => ?_
    rw [Gtpoolrr.greenPool, h.greenPools i (Nat.le_of_lt (List.mem_range.mp hi))]
  rw [gtpoolrrInit, if_neg (by omega)]
  refine ⟨_, rfl, Extent.Tiles.fills (a := ⟨memory, _⟩) ?_ (by simp [Gtpoolrr.regions])⟩
  simp only [Gtpoolrr.regions, hpools, h.thread, hgreen, h.jobs, h.ready, h.arg, h.queue, h.state,
    hadvise]
  refine ⟨rfl, rfl, (Extent.tiles_pieces _ _ _).append ⟨rfl, (hreadies _).append
    ⟨rfl, (hqueues _).append ((hqueues _).append ⟨rfl, rfl, ?_⟩)⟩⟩⟩
  simp only [Extent.tiles_nil, Extent.stop, gtpoolrrTotal]
  omega

/-- Both pools use all of the memory that they ask for, and no part of it twice. -/
theorem layouts_fill (pthread : Pthread) (hthreads : 0 < threadCount) (hjobs : 0 < jobsPerThread)
    (memory : Nat) :
    (tpoolrrTotal pthread threadCount jobsPerThread < sizeMax →
      ∃ p, tpoolrrInit pthread threadCount jobsPerThread memory = some p ∧
        Extent.Fills ⟨memory, tpoolrrAdvise pthread threadCount jobsPerThread⟩
          (p.regions pthread threadCount jobsPerThread)) ∧
    (gtpoolrrTotal pthread threadCount jobsPerThread < sizeMax →
      ∃ p, gtpoolrrInit pthread threadCount jobsPerThread memory = some p ∧
        Extent.Fills ⟨memory, gtpoolrrAdvise pthread threadCount jobsPerThread⟩
          (p.regions pthread threadCount jobsPerThread)) :=
  ⟨fun hsize => tpoolrr_fills hthreads hjobs hsize memory,
    fun hsize => gtpoolrr_fills hthreads hjobs hsize memory⟩

theorem layouts_fill_two :
    (∃ p, tpoolrrInit ⟨8, 48, 40⟩ 2 3 4096 = some p ∧
      Extent.Fills ⟨4096, tpoolrrAdvise ⟨8, 48, 40⟩ 2 3⟩ (p.regions ⟨8, 48, 40⟩ 2 3)) ∧
    ∃ p, gtpoolrrInit ⟨8, 48, 40⟩ 2 3 4096 = some p ∧
      Extent.Fills ⟨4096, gtpoolrrAdvise ⟨8, 48, 40⟩ 2 3⟩ (p.regions ⟨8, 48, 40⟩ 2 3) := by
  have hfill := layouts_fill ⟨8, 48, 40⟩ (show 0 < 2 by decide) (show 0 < 3 by decide) 4096
  exact ⟨hfill.1 (by decide), hfill.2 (by decide)⟩

end Laws

end Dert
