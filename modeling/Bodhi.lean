import Bodhi.StatusRefresh
import Bodhi.NetdevForwards
import Bodhi.StopPort
import Bodhi.QcowMount
import Bodhi.GroqOverlap
import Bodhi.GroqSession
import Bodhi.HistoryHook
import Bodhi.InstallAnnounce
import Bodhi.NumberedMenus
import Bodhi.PortGrammar
import Bodhi.StatusRows
import Bodhi.WindowOrder
import Bodhi.WindowViews
import Bodhi.WindowGeometry
import Bodhi.ClientLinks
import Bodhi.CommandLine
import Bodhi.ScreenLock
import Bodhi.TerminalRuns
