import Playground.Breaker.Monitoring
import Playground.Breaker.OneTrial
import Playground.Breaker.Outage
import Playground.Limiter.Clients
import Playground.Lock.Exclusion
import Playground.Lock.NestSerial
import Playground.Lock.Ownership
import Playground.Lock.Race
import Playground.Lock.Refused
import Playground.Lock.Reinit
import Playground.Lock.Retry
import Playground.Queue.Deliverable
import Playground.Queue.Drain
import Playground.Queue.Lifecycle
import Playground.Queue.Payload
import Playground.Rooms.Cluster
import Playground.Rooms.Deliveries
import Playground.Rooms.Endpoint
import Playground.Rooms.Listener
import Playground.Rooms.Query
import Playground.Rooms.Texts
