import FishRpc.Lib.Monitor

/-!
This module contains the queues of requests of the io_uring loop under `recvQueMut_` and
`sendQueMut_`: any thread adds requests, and `beginRecv` and `beginSend` take them out. The accesses
to the queue are steps of their own. The kind of the requests is a parameter.
-/

namespace Fish

open Monitor (Body)

namespace RequestQueue

variable {T κ : Type}

-- `take` is the section of `beginRecv` and of `beginSend`
inductive Op (κ : Type) where
  | addReadRequest (request : κ)
  | addWriteRequest (request : κ)
  | take (freeNum : Nat)
  deriving DecidableEq

-- what the call returns, or the requests and `freeNum_` afterwards
inductive Result (κ : Type) where
  | add (result : Nat)
  | take (temp : List κ) (freeNum : Nat)
  deriving DecidableEq

-- `for (size_t i = 0; i < freeNum_; i++)`
def takeLoop : Nat → List κ → Body (List κ) (Result κ)
  | 0, temp => .ret (.take temp 0)
  | i + 1, temp => .access List.tail fun que => takeLoop i (temp ++ que.head?.toList)

def body : Op κ → Body (List κ) (Result κ)
  | .addReadRequest request =>
    .access (fun que => que ++ [request]) fun _ =>
      .access id fun que => .ret (.add que.length)
  | .addWriteRequest request => .access (fun que => que ++ [request]) fun _ => .ret (.add 0)
  | .take freeNum =>
    .access id fun que =>
      let size := que.length
      if size = 0 then
        .ret (.take [] freeNum)
      else if size ≤ freeNum then
        .access (fun _ => []) fun que => .ret (.take que (freeNum - size))
      else
        takeLoop freeNum []

end RequestQueue

abbrev RequestQueue (T κ : Type) : Type :=
  Monitor T (List κ) (RequestQueue.Op κ) (RequestQueue.Result κ)

namespace RequestQueue

variable {T κ : Type} [DecidableEq T]

def new : RequestQueue T κ := Monitor.init []

def Step (s : RequestQueue T κ) (e : T × Monitor.Action (Op κ)) (s' : RequestQueue T κ) : Prop :=
  Monitor.Step body s e s'

end RequestQueue
end Fish
