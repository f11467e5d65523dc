import RedisRoaring.Agreement
import RedisRoaring.Card
import RedisRoaring.Dumps
import RedisRoaring.Durability
import RedisRoaring.Isolation
import RedisRoaring.Numbers
import RedisRoaring.Payload
import RedisRoaring.Recovery
import RedisRoaring.Rejection
import RedisRoaring.Replication
import RedisRoaring.RunCompression
