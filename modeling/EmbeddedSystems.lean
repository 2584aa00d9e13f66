import EmbeddedSystems.Aes.Session
import EmbeddedSystems.Aes.Demo
import EmbeddedSystems.Aes.Display
import EmbeddedSystems.Pwm.Agreement
import EmbeddedSystems.Pwm.Waveform
import EmbeddedSystems.Pwm.Reprogramming
import EmbeddedSystems.Nios2leds.Debounce
import EmbeddedSystems.Nios2leds.TopLevel
import EmbeddedSystems.Nios2leds.KeyInterrupts
import EmbeddedSystems.Nios2leds.TimeSleep
import EmbeddedSystems.Nios2leds.StringCipher
import EmbeddedSystems.Hal.SystemClock
import EmbeddedSystems.Hal.Llist
import EmbeddedSystems.Hal.Alarm
import EmbeddedSystems.Hal.AlarmClock
import EmbeddedSystems.HostSystem.ResetController
import EmbeddedSystems.Nios2leds.KeyPath
import EmbeddedSystems.HostSystem.Transfers
