import FishRpc.Base.Impl.Timer

/-!
This module contains the loop of `Timer::start` with the clock that it reads. The readings are those
of `system_clock` in milliseconds since the epoch, in the order in which the loop asks for them.
`working_` is set in front of the loop and nothing resets it.
-/

namespace Fish

-- `timeBegin` and `timeEnd` are the local variables of `start`
structure TimerLoop where
  timer : Timer
  timeBegin : Int
  timeEnd : Int

-- what the clock shows during a round: in `delay_ms`, after it, to the tasks and at the end
structure ClockReadings where
  delay : List Int
  timeBegin : Int
  clock : Nat → Int
  timeEnd : Int

-- the readings that are left when `delay_ms` returns, `none` if it goes on waiting
def delayMs (ms : Int) : List Int → Option (List Int)
  | [] => none
  | now :: readings =>
    let begin := now + ms
    match readings.dropWhile fun now => begin > now with
    | [] => none
    | _ :: readings => some readings

namespace TimerLoop

def start (timer : Timer) : TimerLoop where
  timer := timer
  timeBegin := 0
  timeEnd := 0

-- the argument of `delay_ms` is an `int`
def delay (s : TimerLoop) : Int := sizeToInt (s.timer.slotTime - (s.timeEnd - s.timeBegin))

-- one round of the loop; `none` if `delay_ms` does not return exactly after these readings
def round (s : TimerLoop) (r : ClockReadings) : Option (TimerLoop × List Executed) :=
  if delayMs s.delay r.delay = some [] then
    let (timer, executed) := s.timer.tick r.timeBegin r.clock
    some ({ timer := timer, timeBegin := r.timeBegin, timeEnd := r.timeEnd }, executed)
  else
    none

end TimerLoop
end Fish
