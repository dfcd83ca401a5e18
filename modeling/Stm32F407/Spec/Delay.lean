import Stm32F407.Lib.DownCounter
import Stm32F407.Spec.Word

/-! The busy waiting of `delay.c`. SysTick counts down from its reload value and starts
again; `delay_us` adds up the differences between the values it happens to read. -/

namespace Stm32F407

open Lib

/-- `SysTick->LOAD` and the two multipliers that `delay_init` sets. -/
structure DelayConfig where
  load : U32
  facUs : U8
  facMs : U16

def configTickRateHz : U32 := 1000

def delayInit (sysclk : U8) : DelayConfig where
  load := sysclk.setWidth 32 * (1000000 / configTickRateHz)
  facUs := sysclk
  facMs := (1000 / configTickRateHz).setWidth 16

/-- `SysTick->VAL` after `t` ticks. -/
def sysTickVal (load : U32) (t : ℕ) : U32 := BitVec.ofNat 32 (downValue load.toNat t)

/-- The local variables of `delay_us`, and whether its loop is left. -/
structure DelayLoop where
  told : U32
  tcnt : U32
  done : Bool
  deriving DecidableEq

def DelayLoop.round (s : DelayLoop) (reload ticks tnow : U32) : DelayLoop :=
  if s.done then s
  else if tnow ≠ s.told then
    let tcnt := if tnow < s.told then s.tcnt + (s.told - tnow) else s.tcnt + (reload - tnow + s.told)
    ⟨tnow, tcnt, decide (ticks ≤ tcnt)⟩
  else s

/-- `delay_us` after `k` rounds; `val` are the values of `SysTick->VAL` that it reads, the
first one before the loop. -/
def delayUs (c : DelayConfig) (nus : U32) (val : ℕ → U32) : ℕ → DelayLoop
  | 0 => ⟨val 0, 0, false⟩
  | k + 1 => (delayUs c nus val k).round c.load (nus * c.facUs.setWidth 32) (val (k + 1))

/-- `delay_ms`: what it passes to `vTaskDelay`, if it calls it, and to `delay_us`. -/
def delayMs (c : DelayConfig) (started : Bool) (nms : U32) : Option U32 × U32 :=
  let facMs := c.facMs.setWidth 32
  if started then (if facMs ≤ nms then some (nms / facMs) else none, nms % facMs * 1000)
  else (none, nms * 1000)

end Stm32F407
