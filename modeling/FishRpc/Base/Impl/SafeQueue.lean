import FishRpc.Lib.Monitor
import FishRpc.Lib.SizeT

/-!
This module contains `MyQueue`, the bounded store of buffers that the threads around the log share.
Every member function holds `mut_` until it returns, its accesses to `que_` are steps of their own.
`size_t` is compared with the length, so a negative size is a large one.
-/

namespace Fish

open Monitor (Body)

structure MyQueue (α : Type) where
  que : List α
  maxSize : Nat

namespace MyQueue

variable {α : Type}

inductive Op (α : Type) where
  | empty
  | tryPop
  | push (element : α)
  | size
  deriving DecidableEq

inductive Result (α : Type) where
  | empty (result : Bool)
  | tryPop (result : Option α)
  | push (result : Bool)
  | size (result : Int)
  deriving DecidableEq

def new (size : Int) : MyQueue α where
  que := []
  maxSize := intToSize size

def body : Op α → Body (MyQueue α) (Result α)
  | .empty => .access id fun s => .ret (.empty s.que.isEmpty)
  | .tryPop =>
    .access id fun s =>
      if s.que.isEmpty then
        .ret (.tryPop none)
      else
        -- what is moved from is the last element
        .access id fun s =>
          let ret := s.que.getLast?
          .access (fun s => { s with que := s.que.dropLast }) fun _ => .ret (.tryPop ret)
  | .push element =>
    .access id fun s =>
      if s.que.length = s.maxSize then
        .ret (.push false)
      else
        .access (fun s => { s with que := s.que ++ [element] }) fun _ => .ret (.push true)
  | .size => .access id fun s => .ret (.size (sizeToInt s.que.length))

end MyQueue

-- any number of threads that use one queue
abbrev SharedQueue (T α : Type) : Type :=
  Monitor T (MyQueue α) (MyQueue.Op α) (MyQueue.Result α)

namespace SharedQueue

variable {T α : Type} [DecidableEq T]

def new (size : Int) : SharedQueue T α := Monitor.init (MyQueue.new size)

def Step (s : SharedQueue T α) (e : T × Monitor.Action (MyQueue.Op α)) (s' : SharedQueue T α) : Prop :=
  Monitor.Step MyQueue.body s e s'

end SharedQueue
end Fish
