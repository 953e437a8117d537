import Mathlib.Logic.Function.Basic

/-!
This module contains `LockGuard` and `Mutex`: any number of guards on one mutex, each in one of its
member functions at a time. A member function first looks at `isLocked`, then it calls the mutex and
last it sets the flag, and other guards can do anything in between. The mutex knows which guard has
locked it, and an unlock frees it whoever calls.
-/

namespace Fish

namespace LockGuard

inductive Call where
  | lock
  | unlock
  | destroy
  deriving DecidableEq

-- where a guard is: `unlocking` is in front of `mutex_.unlock()` and `unlocked` is behind it
inductive Phase where
  | unborn
  | constructing
  | constructed
  | idle
  | unlocking (call : Call)
  | unlocked (call : Call)
  | destroyed
  deriving DecidableEq

end LockGuard

structure LockGuard where
  phase : LockGuard.Phase
  isLocked : Bool
  deriving DecidableEq

namespace LockGuard

def unborn : LockGuard where
  phase := .unborn
  isLocked := false

-- where the return of a member function leads
def returned : Call → Phase
  | .lock | .unlock => .idle
  | .destroy => .destroyed

-- `lock` calls `mutex_.unlock()` as well
def enter (guard : LockGuard) : Call → LockGuard
  | .lock =>
    if guard.isLocked then { guard with phase := returned .lock }
    else { guard with phase := .unlocking .lock }
  | .unlock =>
    if !guard.isLocked then { guard with phase := returned .unlock }
    else { guard with phase := .unlocking .unlock }
  | .destroy =>
    if !guard.isLocked then { guard with phase := returned .destroy }
    else { guard with phase := .unlocking .destroy }

end LockGuard

structure Mutex (G : Type) where
  owner : Option G
  guard : G → LockGuard

namespace Mutex

open LockGuard (Call)

variable {G : Type} [DecidableEq G]

def init : Mutex G where
  owner := none
  guard _ := .unborn

def move (s : Mutex G) (g : G) (guard : LockGuard) : Mutex G :=
  { s with guard := Function.update s.guard g guard }

inductive Action where
  | construct
  | lockMutex
  | setLocked
  | call (call : Call)
  | unlockMutex
  | clearLocked
  deriving DecidableEq

-- `none` if the step cannot happen
def step (s : Mutex G) : G × Action → Option (Mutex G)
  | (g, .construct) =>
    match (s.guard g).phase with
    | .unborn => some (s.move g { s.guard g with phase := .constructing })
    | _ => none
  | (g, .lockMutex) =>
    match (s.guard g).phase, s.owner with
    | .constructing, none =>
      some ({ s with owner := some g }.move g { s.guard g with phase := .constructed })
    | _, _ => none
  | (g, .setLocked) =>
    match (s.guard g).phase with
    | .constructed => some (s.move g { phase := .idle, isLocked := true })
    | _ => none
  | (g, .call call) =>
    match (s.guard g).phase with
    | .idle => some (s.move g ((s.guard g).enter call))
    | _ => none
  | (g, .unlockMutex) =>
    match (s.guard g).phase with
    | .unlocking call =>
      some ({ s with owner := none }.move g { s.guard g with phase := .unlocked call })
    | _ => none
  | (g, .clearLocked) =>
    match (s.guard g).phase with
    | .unlocked call =>
      some (s.move g { phase := LockGuard.returned call, isLocked := false })
    | _ => none

def Step (s : Mutex G) (e : G × Action) (s' : Mutex G) : Prop := s.step e = some s'

end Mutex
end Fish
