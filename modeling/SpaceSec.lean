import SpaceSec.Agreement
import SpaceSec.Reordering
import SpaceSec.Attack
import SpaceSec.SessionKey
import SpaceSec.KeyAgreement
import SpaceSec.PlaintextRelease
import SpaceSec.Latency
import SpaceSec.Reporting
import SpaceSec.LinkStatus
import SpaceSec.CriticalAlerts
import SpaceSec.Mirror
import SpaceSec.GroundScript
import SpaceSec.Rejections
import SpaceSec.LiveLoop
import SpaceSec.Ingest
import SpaceSec.Feed
import SpaceSec.Alerts
import SpaceSec.AlertMarkup
import SpaceSec.EndToEnd
import SpaceSec.AdvancingClock
import SpaceSec.Console
import SpaceSec.Phase2
import SpaceSec.Interleavings
