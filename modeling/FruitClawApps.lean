import FruitClawApps.FruitClaw.Http
import FruitClawApps.FruitClaw.Telegram
import FruitClawApps.FruitClaw.Scheduler.CronRun
import FruitClawApps.FruitClaw.Scheduler.OnceRun
import FruitClawApps.FruitClaw.GuardedCalls
import FruitClawApps.FruitClaw.Memory
import FruitClawApps.FruitClaw.Notify
import FruitClawApps.FruitClaw.Console
import FruitClawApps.FruitClaw.Script
import FruitClawApps.Netutils.Webclient.Framing
import FruitClawApps.Boot.Nxboot.Rollback
import FruitClawApps.Boot.Nxboot.Downgrade
import FruitClawApps.Netutils.Webserver.DocumentRoot
import FruitClawApps.Industry.Nxmodbus.Ascii
import FruitClawApps.Industry.Nxmodbus.TcpCalls
import FruitClawApps.Industry.Nxmodbus.Raw
import FruitClawApps.Netutils.Cmux.Extract
import FruitClawApps.System.Settings.Sync
import FruitClawApps.System.Settings.SaveFile
import FruitClawApps.System.Nxpkg.Concurrent
import FruitClawApps.System.Smf.Entered
import FruitClawApps.System.Nxinit.Parser
import FruitClawApps.System.Nxinit.Events
import FruitClawApps.System.Nxinit.Processes
import FruitClawApps.Netutils.Dhcpd.Datagrams
import FruitClawApps.System.Trmnl.Display
import FruitClawApps.Netutils.Ntpclient.Offset
import FruitClawApps.FruitClaw.Scheduler.CronSets
import FruitClawApps.FruitClaw.MemoryTail
import FruitClawApps.Netutils.Tftpc.Get
import FruitClawApps.FruitClaw.Neopixels
