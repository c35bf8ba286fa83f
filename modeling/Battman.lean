import Battman.PacketTimeout
import Battman.ConfigOverlap
import Battman.SetField
import Battman.FwUpdater
import Battman.FirmwareUpload
import Battman.DischargeSwitches
import Battman.PowerInit
import Battman.PrechargeTimes
import Battman.ChargeSwitch
import Battman.ChargeLimit
import Battman.ValidatedFields
import Battman.LockBalance
import Battman.CellReadings
import Battman.ReceiveQueues
import Battman.Soc
import Battman.I2cBus
import Battman.StartUp
import Battman.ChargeRegulation
import Battman.ConfigLoading
import Battman.FieldEcho
import Battman.ButtonHold
import Battman.BalanceSet
import Battman.CellCodes
import Battman.RtccAlarm
import Battman.PecRemainder
import Battman.EepromWear
import Battman.FlashRuns
import Battman.AcknowledgedUpload
import Battman.FaultLatch
import Battman.RemoteCalls
import Battman.DrainedCells
import Battman.CanBus
import Battman.UsbSerial
