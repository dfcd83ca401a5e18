import Stm32F407.Proofs.Malloc
import Stm32F407.Proofs.MallocPlacement
import Stm32F407.Proofs.MallocUsage
import Stm32F407.Proofs.MallocFree
import Stm32F407.Proofs.Realloc
import Stm32F407.Proofs.MemClients
import Stm32F407.Proofs.EthMem
import Stm32F407.Proofs.EthRing
import Stm32F407.Proofs.ModbusHolding
import Stm32F407.Proofs.ModbusCoils
import Stm32F407.Proofs.ModbusBits
import Stm32F407.Proofs.ModbusAddressing
import Stm32F407.Proofs.ModbusFrames
import Stm32F407.Proofs.RtuLoopback
import Stm32F407.Proofs.RtuExecution
import Stm32F407.Proofs.RtuPort
import Stm32F407.Proofs.ModbusReply
import Stm32F407.Proofs.ModbusBus
import Stm32F407.Proofs.ModbusProgress
import Stm32F407.Proofs.EthTx
import Stm32F407.Proofs.EthRx
import Stm32F407.Proofs.EthTxRing
import Stm32F407.Proofs.EthIrq
import Stm32F407.Proofs.Dhcp
import Stm32F407.Proofs.Can
import Stm32F407.Proofs.Delay
import Stm32F407.Proofs.RtosScheduler
import Stm32F407.Proofs.RtosHeapSystem
