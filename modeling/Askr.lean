import Askr.Kv.Lock
import Askr.Rcache.Book
import Askr.Queue.Fence
import Askr.Kv.Converge
import Askr.Kv.Replace
import Askr.Kv.Room
import Askr.Shmlock
import Askr.Kv.Crash
import Askr.Kv.Read
import Askr.RateLimit.Retry
import Askr.Rcache.Render
import Askr.Bridge
import Askr.Server.Visits
import Askr.Queue.Crash
import Askr.Isolate
import Askr.RateLimit.Fleet
import Askr.Rcache.Flight
import Askr.Broadcast.Deliver
import Askr.Server.Release
import Askr.Supervisor.Canary
import Askr.Supervisor.Rolling
import Askr.Supervisor.Verdict
import Askr.Sql.Counter
import Askr.Sql.Race
import Askr.Sql.Names
import Askr.Sql.Backends
import Askr.Kv.Refuse
import Askr.Laravel.Directive
import Askr.Policy.Deadline
import Askr.Policy.Params
import Askr.Rcache.Glob
import Askr.Server.Forwarded
import Askr.Queue.Stall
import Askr.Kv.Count
import Askr.Pusher.Stream
import Askr.Pusher.Messages
import Askr.Queue.Lanes
import Askr.Upload
import Askr.Server.Statics
